import DeskCalc.Number.Binary64

/-!
# Elementary functions

Functions of one and of two doubles. Rounding to a whole number is integer arithmetic on the units
of a magnitude. The other functions are the library's for finite arguments; what they are for an
infinity and for what is no number stands here.
-/

namespace DeskCalc.Elementary

open Binary64

/-! ## Rounding to whole numbers -/

/-- The greatest whole number that is not above so many units. -/
def wholeBelow (n : Nat) : Nat :=
  n / 2 ^ 1074

/-- The least whole number that is not below so many units. -/
def wholeAbove (n : Nat) : Nat :=
  (n + (2 ^ 1074 - 1)) / 2 ^ 1074

/-- The whole number nearest to so many units, a half going up. -/
def wholeNearest (n : Nat) : Nat :=
  (2 * n + 2 ^ 1074) / (2 * 2 ^ 1074)

/-- The double with the sign of `x` and the whole number that `whole` makes of its magnitude. A
value that is not finite stays as it is. -/
def toWhole (whole : Nat → Nat) (x : Float) : Float :=
  if x.isFinite then ofRank (hasSign x) (nearest (whole (units (rank x))) 1) else x

/-- The greatest whole number that is not above `x`. -/
def floor (x : Float) : Float :=
  toWhole (if hasSign x then wholeAbove else wholeBelow) x

/-- The least whole number that is not below `x`. -/
def ceil (x : Float) : Float :=
  toWhole (if hasSign x then wholeBelow else wholeAbove) x

/-- The whole number nearest to `x`, a half going away from zero. -/
def round (x : Float) : Float :=
  toWhole wholeNearest x

/-! ## Functions with limits at the infinities -/

/-- A function of the library for finite arguments, with its values at minus infinity and at
infinity. What is no number has no value. -/
def extended (f : Float → Float) (below above : Float) (x : Float) : Float :=
  if x.isFinite then f x
  else if x.isNaN then nan
  else if hasSign x then below
  else above

/-- The sine. It has no value at an infinity, nor have the four functions after it. -/
def sin : Float → Float := extended Float.sin nan nan

def cos : Float → Float := extended Float.cos nan nan

def tan : Float → Float := extended Float.tan nan nan

def asin : Float → Float := extended Float.asin nan nan

def acos : Float → Float := extended Float.acos nan nan

/-- The arc tangent, a right angle at the infinities. -/
def atan : Float → Float :=
  extended Float.atan (Float.ofBits 0xBFF921FB54442D18) (Float.ofBits 0x3FF921FB54442D18)

/-- The exponential, which is between zero and infinity. -/
def exp : Float → Float := extended Float.exp (ofRank false 0) (infinity false)

/-- The natural logarithm, which grows without bound. -/
def log : Float → Float := extended Float.log nan (infinity false)

def log10 : Float → Float := extended Float.log10 nan (infinity false)

/-! ## Powers -/

/-- Whether a double is an odd whole number. -/
def isOdd (y : Float) : Bool :=
  y.isFinite && units (rank y) % (2 * 2 ^ 1074) == 2 ^ 1074

/-- The power of a base. The power zero of anything is one, and so is any power of one, also where
the other operand is no number. An infinite power of a base other than one and minus one is zero or
infinity, and so is a power of an infinite base. -/
def pow (x y : Float) : Float :=
  if x.isFinite && y.isFinite then Float.pow x y
  else if y == 0 || x == 1 then 1
  else if x.isNaN || y.isNaN then nan
  else if y.isInf then
    if x.abs == 1 then 1
    else if y < 0 then (if 1 < x.abs then 0 else infinity false)
    else if x.abs < 1 then 0
    else infinity false
  else ofRank (hasSign x && isOdd y) (if y < 0 then 0 else infinityRank)

end DeskCalc.Elementary
