/-!
# Doubles as ranks

The doubles of one sign, from zero upwards, are counted by their *rank*: the zero has rank 0, the
least positive double rank 1, and the first rank past the finite doubles is the infinity's. The
rank is the bit pattern without its sign, so it is exact integer data about a `Float`.

A finite magnitude is a whole number of *units* of 2^-1074. `units` counts them, and `nearest` goes
the other way for any quotient of whole numbers: it gives the rank of the double closest to the
quotient, a tie going to the even rank.
-/

-- Powers of whole numbers are those of core, also next to a library that brings its own.
attribute [default_instance 20000, instance (20000)] instPowNat

namespace DeskCalc.Binary64

/-- The rank of infinity: the finite magnitudes have the ranks below it. -/
def infinityRank : Nat := 0x7FF0000000000000

/-- How many doubles lie between zero and the magnitude of `x`. -/
def rank (x : Float) : Nat :=
  x.toBits.toNat % 2 ^ 63

/-- Whether the sign bit of `x` is set, as it is for the negative zero. -/
def hasSign (x : Float) : Bool :=
  2 ^ 63 ≤ x.toBits.toNat

/-- The double of the given sign and rank. -/
def ofRank (sign : Bool) (r : Nat) : Float :=
  Float.ofBits (UInt64.ofNat (if sign then 2 ^ 63 + r else r))

/-- The infinity of a sign. -/
def infinity (sign : Bool) : Float :=
  ofRank sign infinityRank

/-- What is no number. -/
def nan : Float :=
  Float.ofBits 0x7FF8000000000000

/-- The magnitude of rank `r` in units of 2^-1074. The first 2^53 ranks are their own number of
units; from there the step between neighbours doubles every 2^52 ranks. -/
def units (r : Nat) : Nat :=
  if r < 2 ^ 52 then r else (2 ^ 52 + r % 2 ^ 52) * 2 ^ (r / 2 ^ 52 - 1)

/-- The whole number nearest to `num / den`, a tie going to the even one. -/
def roundHalfEven (num den : Nat) : Nat :=
  let quotient := num / den
  let doubled := 2 * (num % den)
  if doubled < den then quotient
  else if den < doubled then quotient + 1
  else quotient + quotient % 2

/-- The rank of the double nearest to `num / den`, a tie going to the even rank. Past the largest
finite double the ranks go on as if the exponent had no bound, and all of them stand for
infinity. -/
def nearest (num den : Nat) : Nat :=
  let scaled := num * 2 ^ 1074
  let shift := (scaled / den).log2 - 52
  min infinityRank (shift * 2 ^ 52 + roundHalfEven scaled (den * 2 ^ shift))

end DeskCalc.Binary64
