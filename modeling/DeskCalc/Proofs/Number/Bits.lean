import DeskCalc.Number.Binary64

/-!
# Sign and rank

A double is its sign and its rank: the two determine it, every sign and every rank up to that of
infinity occur, and what core computes from the unpacked double can be told from them.

* `unpacks`: the unpacked form of a double, by its rank.
* `ext_rank`, `rank_ofRank`, `hasSign_ofRank`: doubles are pairs of a sign and a rank.
* `isFinite_iff`, `isNaN_iff`, `lt_zero_iff`, `abs_eq_ofRank`, `neg_eq_ofRank`: classes, comparison,
  magnitude and negation.
-/

namespace DeskCalc.Binary64

open Float.Model UnpackedFloat

/-! ## Fields of a bit pattern -/

theorem toNat_unpackMantissa (b : BitVec 64) :
    (@unpackMantissa Format.binary64 b).toNat = b.toNat % 2 ^ 52 := by
  show (b.toNat >>> 0) % 2 ^ 52 = _
  rw [Nat.shiftRight_zero]

theorem toNat_unpackExponent (b : BitVec 64) :
    (@unpackExponent Format.binary64 b).toNat = b.toNat / 2 ^ 52 % 2 ^ 11 := by
  show (b.toNat >>> 52) % 2 ^ 11 = _
  rw [Nat.shiftRight_eq_div_pow]

/-- The sign, from its bit. -/
def signOf (negative : Bool) : Sign :=
  if negative then .negative else .positive

theorem ofBitVec_unpackSign (b : BitVec 64) :
    Sign.ofBitVec (@unpackSign Format.binary64 b) = signOf (2 ^ 63 ≤ b.toNat) := by
  have hlt := b.isLt
  have hbit : (@unpackSign Format.binary64 b).toNat = b.toNat / 2 ^ 63 := by
    show (b.toNat >>> 63) % 2 ^ 1 = _
    rw [Nat.shiftRight_eq_div_pow]
    omega
  have hzero : @unpackSign Format.binary64 b = 0#1 ↔ b.toNat / 2 ^ 63 = 0 := by
    rw [← hbit, ← BitVec.toNat_inj]
    rfl
  by_cases hneg : 2 ^ 63 ≤ b.toNat
  · have hone := mt hzero.1 (by omega)
    rw [Sign.ofBitVec, if_neg hone, signOf, if_pos (decide_eq_true hneg)]
  · have hnone := hzero.2 (by omega)
    rw [Sign.ofBitVec, if_pos hnone, decide_eq_false hneg]
    rfl

theorem toNat_append {k l : Nat} (a : BitVec k) (b : BitVec l) :
    (a ++ b).toNat = a.toNat * 2 ^ l + b.toNat := by
  rw [BitVec.toNat_append, ← Nat.shiftLeft_add_eq_or_of_lt b.isLt, Nat.shiftLeft_eq]

theorem toNat_packComponents (s : Sign) (e : BitVec 11) (m : BitVec 52) :
    (packComponents Format.binary64 s e m).toNat =
      s.toBitVec.toNat * 2 ^ 63 + e.toNat * 2 ^ 52 + m.toNat := by
  rw [packComponents]
  rw [toNat_append, toNat_append]
  omega

/-- A finite unpacked form is packed by its exponent, then by the length of its mantissa. -/
theorem pack_finite (s : Sign) (m : Nat) (e : Int) (hm : 0 < m) :
    UnpackedFloat.pack Format.binary64 (.finite s m e hm) =
      if 2 ^ 11 ≤ (e + 1023 + 52).toNat + 1 then packedInfinity Format.binary64 s
      else if m.log2 + 1 = 53 then
        packComponents Format.binary64 s (BitVec.ofNat 11 (e + 1023 + 52).toNat) (BitVec.ofNat 52 m)
      else packComponents Format.binary64 s 0#11 (BitVec.ofNat 52 m) := rfl

/-! ## Unpacking and packing -/

/-- The unpacked form of the double with a sign and a rank. A normal double has the implicit bit on
top of its fraction. -/
inductive Unpacks (s : Sign) : Nat → UnpackedFloat → Prop
  | zero : Unpacks s 0 (.zero s)
  | subnormal {r : Nat} (hpos : 0 < r) (hlt : r < 2 ^ 52) : Unpacks s r (.finite s r (-1074) hpos)
  | normal {r : Nat} (hlow : 2 ^ 52 ≤ r) (hlt : r < infinityRank)
      (hpos : 0 < 2 ^ 52 + r % 2 ^ 52) :
      Unpacks s r (.finite s (2 ^ 52 + r % 2 ^ 52) ((r / 2 ^ 52 : Nat) - 1075) hpos)
  | infinity : Unpacks s infinityRank (.infinity s)
  | notANumber {r : Nat} (hgt : infinityRank < r) : Unpacks s r .notANumber

theorem Unpacks.of_subnormal {s : Sign} {r m : Nat} {e : Int} {hm : 0 < m} (hmantissa : m = r)
    (hexponent : e = -1074) (hlt : r < 2 ^ 52) : Unpacks s r (.finite s m e hm) := by
  subst hmantissa hexponent
  exact .subnormal hm hlt

theorem Unpacks.of_normal {s : Sign} {r m : Nat} {e : Int} {hm : 0 < m}
    (hmantissa : m = 2 ^ 52 + r % 2 ^ 52) (hexponent : e = (r / 2 ^ 52 : Nat) - 1075)
    (hlow : 2 ^ 52 ≤ r) (hlt : r < infinityRank) : Unpacks s r (.finite s m e hm) := by
  subst hmantissa hexponent
  exact .normal hlow hlt hm

theorem unpackMantissa_eq_iff (b : BitVec 64) (m : BitVec 52) :
    @unpackMantissa Format.binary64 b = m ↔ b.toNat % 2 ^ 52 = m.toNat := by
  rw [← toNat_unpackMantissa]
  exact BitVec.toNat_inj.symm

theorem unpackExponent_eq_iff (b : BitVec 64) (e : BitVec 11) :
    @unpackExponent Format.binary64 b = e ↔ b.toNat / 2 ^ 52 % 2 ^ 11 = e.toNat := by
  rw [← toNat_unpackExponent]
  exact BitVec.toNat_inj.symm

/-- A bit pattern is unpacked by its sign and its rank. The exponent field tells the forms apart:
all ones for infinity and what is no number, all zeros for zero and the subnormal doubles. -/
theorem unpacks_unpack (b : BitVec 64) :
    Unpacks (signOf (2 ^ 63 ≤ b.toNat)) (b.toNat % 2 ^ 63)
      (UnpackedFloat.unpack Format.binary64 b) := by
  have hones : (-1#11).toNat = 2047 := by decide
  have hmantissa := unpackMantissa_eq_iff b 0#52
  rw [← ofBitVec_unpackSign]
  delta UnpackedFloat.unpack
  dsimp only
  by_cases hspecial : @unpackExponent Format.binary64 b = -1#11
  · have hexponent := (unpackExponent_eq_iff b _).1 hspecial
    rw [hones] at hexponent
    rw [if_pos hspecial]
    by_cases hzero : @unpackMantissa Format.binary64 b = 0#52
    · have hinfinity : b.toNat % 2 ^ 63 = infinityRank := by
        have hfraction : b.toNat % 2 ^ 52 = 0 := hmantissa.1 hzero
        rw [infinityRank]
        omega
      rw [if_pos hzero, hinfinity]
      exact .infinity
    · have hfraction : ¬ b.toNat % 2 ^ 52 = 0 := mt hmantissa.2 hzero
      rw [if_neg hzero]
      refine .notANumber ?_
      rw [infinityRank]
      omega
  · have hexponent := mt (unpackExponent_eq_iff b _).2 hspecial
    rw [hones] at hexponent
    rw [if_neg hspecial]
    by_cases hleast : @unpackExponent Format.binary64 b = 0#11
    · have hfield : b.toNat / 2 ^ 52 % 2 ^ 11 = 0 := (unpackExponent_eq_iff b _).1 hleast
      rw [if_pos hleast]
      by_cases hzero : @unpackMantissa Format.binary64 b = 0#52
      · have hrank : b.toNat % 2 ^ 63 = 0 := by
          have hfraction : b.toNat % 2 ^ 52 = 0 := hmantissa.1 hzero
          omega
        rw [dif_pos hzero, hrank]
        exact .zero
      · have hfraction : ¬ b.toNat % 2 ^ 52 = 0 := mt hmantissa.2 hzero
        have hrank : b.toNat % 2 ^ 52 = b.toNat % 2 ^ 63 := by omega
        rw [dif_neg hzero]
        refine .of_subnormal ((toNat_unpackMantissa b).trans hrank) ?_ (by omega)
        rw [toNat_unpackExponent, hfield]
        rfl
    · have hfield : ¬ b.toNat / 2 ^ 52 % 2 ^ 11 = 0 := mt (unpackExponent_eq_iff b 0#11).2 hleast
      have himplicit : (1#1 ++ @unpackMantissa Format.binary64 b).toNat =
          2 ^ 52 + b.toNat % 2 ^ 63 % 2 ^ 52 := by
        rw [toNat_append, toNat_unpackMantissa]
        show 1 * 2 ^ 52 + _ = _
        omega
      have hrank : b.toNat / 2 ^ 52 % 2 ^ 11 = b.toNat % 2 ^ 63 / 2 ^ 52 := by omega
      rw [if_neg hleast]
      refine .of_normal himplicit ?_ (by omega) ?_
      · rw [toNat_unpackExponent, hrank]
        rfl
      · rw [infinityRank]
        omega

/-- Packing gives sign and rank back. -/
theorem Unpacks.toNat_pack {s : Sign} {r : Nat} {f : UnpackedFloat} (h : Unpacks s r f)
    (hr : r ≤ infinityRank) :
    (UnpackedFloat.pack Format.binary64 f).toNat = s.toBitVec.toNat * 2 ^ 63 + r := by
  cases h with
  | zero =>
      show (packedZero Format.binary64 s).toNat = _
      rw [packedZero, toNat_packComponents]
      show s.toBitVec.toNat * 2 ^ 63 + 0 * 2 ^ 52 + 0 = _
      omega
  | subnormal hpos hlt =>
      -- The mantissa lacks its leading bit, which is written as an exponent field of zeros.
      have hlog : ¬ r.log2 + 1 = 53 := by
        have := (Nat.log2_lt (Nat.ne_of_gt hpos)).2 hlt
        omega
      rw [pack_finite, if_neg (by decide), if_neg hlog, toNat_packComponents, BitVec.toNat_ofNat,
        BitVec.toNat_ofNat, Nat.mod_eq_of_lt hlt]
      show s.toBitVec.toNat * 2 ^ 63 + 0 * 2 ^ 52 + r = _
      omega
  | normal hlow hlt hpos =>
      -- The leading bit is dropped again, and the exponent field is the quotient of the rank.
      have hlog : (2 ^ 52 + r % 2 ^ 52).log2 + 1 = 53 := by
        have hlog2 : (2 ^ 52 + r % 2 ^ 52).log2 = 52 := by
          rw [Nat.log2_eq_iff (by omega)]
          omega
        rw [hlog2]
      have hbiased : (((r / 2 ^ 52 : Nat) : Int) - 1075 + 1023 + 52).toNat = r / 2 ^ 52 := by omega
      rw [infinityRank] at hlt
      rw [pack_finite, hbiased, if_neg (by omega), if_pos hlog, toNat_packComponents,
        BitVec.toNat_ofNat, BitVec.toNat_ofNat]
      omega
  | infinity =>
      have hfield : infinityRank = 2047 * 2 ^ 52 := by decide
      show (packedInfinity Format.binary64 s).toNat = _
      rw [packedInfinity, toNat_packComponents, hfield]
      show s.toBitVec.toNat * 2 ^ 63 + 2047 * 2 ^ 52 + 0 = _
      omega
  | notANumber hgt => omega

/-! ## Doubles -/

/-- **The unpacked form of a double**, by its sign and its rank. -/
theorem unpacks (x : Float) : Unpacks (signOf (hasSign x)) (rank x) x.toModel.unpack :=
  unpacks_unpack x.toModel.toBits.toBitVec

/-- The bits are sign and rank. -/
theorem toNat_toBits (x : Float) :
    x.toBits.toNat = (if hasSign x then 2 ^ 63 else 0) + rank x := by
  have hlt := x.toBits.toNat_lt
  rw [hasSign, rank]
  by_cases h : 2 ^ 63 ≤ x.toBits.toNat
  · simp only [h, decide_true, if_true]
    omega
  · simp only [h, decide_false, Bool.false_eq_true, if_false]
    omega

/-- **Doubles with the same sign and the same rank are the same.** -/
theorem ext_rank {x y : Float} (hsign : hasSign x = hasSign y) (hrank : rank x = rank y) :
    x = y := by
  have hbits : x.toBits = y.toBits := by
    rw [← UInt64.toNat_inj, toNat_toBits, toNat_toBits, hsign, hrank]
  obtain ⟨⟨_, _⟩⟩ := x
  obtain ⟨⟨_, _⟩⟩ := y
  obtain rfl := hbits
  rfl

/-- The bits of the double with a sign and a rank. -/
theorem toNat_toBits_ofRank {sign : Bool} {r : Nat} (hr : r ≤ infinityRank) :
    (ofRank sign r).toBits.toNat = if sign then 2 ^ 63 + r else r := by
  have hrank : r < 2 ^ 63 := Nat.lt_of_le_of_lt hr (by decide)
  have hbits : (UInt64.ofNat (if sign then 2 ^ 63 + r else r)).toNat =
      if sign then 2 ^ 63 + r else r := by
    refine Nat.mod_eq_of_lt ?_
    split <;> omega
  have hform := unpacks_unpack (UInt64.ofNat (if sign then 2 ^ 63 + r else r)).toBitVec
  rw [UInt64.toNat_toBitVec, hbits] at hform
  have hpack := hform.toNat_pack (by split <;> omega)
  show (UnpackedFloat.pack Format.binary64 _).toNat = _
  rw [hpack]
  cases sign with
  | false =>
      have hpos : ¬ 2 ^ 63 ≤ r := by omega
      simp only [Bool.false_eq_true, if_false, hpos, decide_false]
      show 0 * 2 ^ 63 + r % 2 ^ 63 = r
      omega
  | true =>
      have hneg : 2 ^ 63 ≤ 2 ^ 63 + r := by omega
      simp only [if_true, hneg, decide_true]
      show 1 * 2 ^ 63 + (2 ^ 63 + r) % 2 ^ 63 = 2 ^ 63 + r
      omega

theorem rank_ofRank {sign : Bool} {r : Nat} (hr : r ≤ infinityRank) : rank (ofRank sign r) = r := by
  have hrank : r < 2 ^ 63 := Nat.lt_of_le_of_lt hr (by decide)
  rw [rank, toNat_toBits_ofRank hr]
  split <;> omega

theorem hasSign_ofRank {sign : Bool} {r : Nat} (hr : r ≤ infinityRank) :
    hasSign (ofRank sign r) = sign := by
  have hrank : r < 2 ^ 63 := Nat.lt_of_le_of_lt hr (by decide)
  rw [hasSign, toNat_toBits_ofRank hr]
  cases sign with
  | false => exact decide_eq_false (Nat.not_le_of_lt hrank)
  | true => exact decide_eq_true (Nat.le_add_right ..)

/-! ## Classes, comparison, magnitude and negation -/

theorem Unpacks.isFinite_iff {s : Sign} {r : Nat} {f : UnpackedFloat} (h : Unpacks s r f) :
    f.isFinite = true ↔ r < infinityRank := by
  have hinfinity : 2 ^ 52 < infinityRank := by decide
  cases h with
  | zero => exact iff_of_true rfl (by omega)
  | subnormal hpos hlt => exact iff_of_true rfl (by omega)
  | normal hlow hlt hpos => exact iff_of_true rfl hlt
  | infinity => exact iff_of_false Bool.false_ne_true (Nat.lt_irrefl _)
  | notANumber hgt => exact iff_of_false Bool.false_ne_true (by omega)

theorem Unpacks.isNaN_iff {s : Sign} {r : Nat} {f : UnpackedFloat} (h : Unpacks s r f) :
    f.isNaN = true ↔ infinityRank < r := by
  have hinfinity : 2 ^ 52 < infinityRank := by decide
  cases h with
  | zero => exact iff_of_false Bool.false_ne_true (by omega)
  | subnormal hpos hlt => exact iff_of_false Bool.false_ne_true (by omega)
  | normal hlow hlt hpos => exact iff_of_false Bool.false_ne_true (by omega)
  | infinity => exact iff_of_false Bool.false_ne_true (Nat.lt_irrefl _)
  | notANumber hgt => exact iff_of_true rfl hgt

theorem Unpacks.lt_zero_iff {negative : Bool} {r : Nat} {f : UnpackedFloat}
    (h : Unpacks (signOf negative) r f) (hr : r < infinityRank) :
    f.lt (.zero .positive) = true ↔ negative = true ∧ r ≠ 0 := by
  cases h with
  | zero => exact iff_of_false Bool.false_ne_true fun hneg => hneg.2 rfl
  | subnormal hpos hlt =>
      cases negative with
      | false => exact iff_of_false Bool.false_ne_true fun hneg => by cases hneg.1
      | true => exact iff_of_true rfl ⟨rfl, Nat.ne_of_gt hpos⟩
  | normal hlow hlt hpos =>
      cases negative with
      | false => exact iff_of_false Bool.false_ne_true fun hneg => by cases hneg.1
      | true => exact iff_of_true rfl ⟨rfl, by omega⟩
  | infinity => exact absurd hr (Nat.lt_irrefl _)
  | notANumber hgt => omega

/-- **The finite doubles are those before infinity.** -/
theorem isFinite_iff (x : Float) : x.isFinite = true ↔ rank x < infinityRank :=
  (unpacks x).isFinite_iff

/-- A double past infinity is no number. -/
theorem isNaN_iff (x : Float) : x.isNaN = true ↔ infinityRank < rank x :=
  (unpacks x).isNaN_iff

theorem isNaN_of_isFinite {x : Float} (h : x.isFinite = true) : x.isNaN = false := by
  rw [isFinite_iff] at h
  rw [Bool.eq_false_iff, ne_eq, isNaN_iff]
  omega

/-- A finite double is negative if it has a sign and is not zero. -/
theorem lt_zero_iff {x : Float} (h : x.isFinite = true) :
    x < 0 ↔ hasSign x = true ∧ rank x ≠ 0 := by
  rw [isFinite_iff] at h
  rw [← (unpacks x).lt_zero_iff h]
  exact decide_eq_true_iff

/-- The magnitude has the same unpacked form with a positive sign. -/
theorem Unpacks.abs {s : Sign} {r : Nat} {f : UnpackedFloat} (h : Unpacks s r f) :
    Unpacks .positive r f.abs := by
  cases h with
  | zero => exact .zero
  | subnormal hpos hlt => exact .subnormal hpos hlt
  | normal hlow hlt hpos => exact .normal hlow hlt hpos
  | infinity => exact .infinity
  | notANumber hgt => exact .notANumber hgt

/-- The negation has the same unpacked form with the other sign. -/
theorem Unpacks.neg {negative : Bool} {r : Nat} {f : UnpackedFloat}
    (h : Unpacks (signOf negative) r f) : Unpacks (signOf !negative) r f.neg := by
  have hsign : -signOf negative = signOf !negative := by cases negative <;> rfl
  rw [← hsign]
  cases h with
  | zero => exact .zero
  | subnormal hpos hlt => exact .subnormal hpos hlt
  | normal hlow hlt hpos => exact .normal hlow hlt hpos
  | infinity => exact .infinity
  | notANumber hgt => exact .notANumber hgt

/-- The double of an unpacked form has its sign and its rank. -/
theorem ofModel_pack {negative : Bool} {r : Nat} {f : UnpackedFloat}
    (h : Unpacks (signOf negative) r f) (hr : r ≤ infinityRank) :
    Float.ofModel (Float.Model.pack f) = ofRank negative r := by
  have hbits : (Float.ofModel (Float.Model.pack f)).toBits.toNat =
      (ofRank negative r).toBits.toNat := by
    show (UnpackedFloat.pack Format.binary64 f).toNat = _
    rw [h.toNat_pack hr, toNat_toBits_ofRank hr]
    cases negative with
    | false =>
        show 0 * 2 ^ 63 + r = r
        omega
    | true =>
        show 1 * 2 ^ 63 + r = 2 ^ 63 + r
        omega
  refine ext_rank ?_ ?_
  · rw [hasSign, hbits, ← hasSign]
  · rw [rank, hbits, ← rank]

/-- **The magnitude of a number** keeps its rank and has no sign. -/
theorem abs_eq_ofRank {x : Float} (h : x.isFinite = true) : x.abs = ofRank false (rank x) :=
  ofModel_pack (unpacks x).abs (Nat.le_of_lt ((isFinite_iff x).1 h))

/-- **The negation of a number** keeps its rank and has the other sign. -/
theorem neg_eq_ofRank {x : Float} (h : x.isFinite = true) : -x = ofRank (!hasSign x) (rank x) :=
  ofModel_pack (unpacks x).neg (Nat.le_of_lt ((isFinite_iff x).1 h))

end DeskCalc.Binary64
