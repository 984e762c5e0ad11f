import DeskCalc.Number.Binary64

/-!
# Rounding to decimal places

A double is rounded by way of its exact value: first to the nearest whole number of 10^-n, a tie
going to the even one, then to the double nearest to that decimal.
-/

namespace DeskCalc

open Binary64

/-- The rank that a finite rank is rounded to: that of the double nearest to the nearest decimal
with `places` decimal places. -/
def gridRank (places r : Nat) : Nat :=
  nearest (roundHalfEven (units r * 10 ^ places) (2 ^ 1074)) (10 ^ places)

/-- The double nearest to `x` written with `places` decimal places. A value that is not finite
stays as it is, and a zero result has no sign. -/
def roundTo (places : Nat) (x : Float) : Float :=
  if x.isFinite then
    if gridRank places (rank x) = 0 then ofRank false 0
    else ofRank (hasSign x) (gridRank places (rank x))
  else x

end DeskCalc
