import DeskCalc.Number.Binary64
import DeskCalc.Text.Blank

/-!
# Decimal texts of doubles

Every finite magnitude is a whole number of *parts* of 10^-1074, since 2^-1074 is 5^1074 of them.
So a decimal text of a double needs no more than 1074 decimal places and is a fixed-point text.

* `shortest` gives the parts of the decimal that is written for a magnitude: among the decimals
  that read back as the same double it lies on the coarsest grid of powers of ten, and among those
  of that grid it is the closest, the upper one of two equally close.
* `text` writes parts positionally, without exponent and without a trailing zero.
* `scaledRank` and `read` go from a decimal to its nearest double.
-/

namespace DeskCalc.Decimal

open Binary64

/-- How many parts make one. -/
def one : Nat := 10 ^ 1074

/-- The exact magnitude of rank `r`, in parts. -/
def exact (r : Nat) : Nat :=
  units r * 5 ^ 1074

/-- Whether the decimal of `parts` parts has its nearest double at rank `r`. -/
def readsBack (r parts : Nat) : Bool :=
  nearest parts one == r

/-- The neighbour of `parts` on a grid that is accepted, the closer one if both are, the upper one
if they are equally close. -/
def onGrid (accepted : Nat → Bool) (parts grid : Nat) : Option Nat :=
  let below := parts / grid * grid
  let above := below + grid
  match accepted below, accepted above with
  | true, true => if 2 * (parts % grid) < grid then some below else some above
  | true, false => some below
  | false, true => some above
  | false, false => none

/-- Searches the grids 10^k, 10^(k-1), …, 10 for the first that has an accepted neighbour of
`parts`; on the grid 1 it is `parts` itself. -/
def coarsest (accepted : Nat → Bool) (parts : Nat) : Nat → Nat
  | 0 => parts
  | k + 1 =>
    match onGrid accepted parts (10 ^ (k + 1)) with
    | some q => q
    | none => coarsest accepted parts k

/-- The parts of the decimal written for rank `r`. The search starts at a power of ten above the
exact magnitude, as 2^100000 is less than 10^30103. Only the two neighbours of the exact magnitude
on a grid can read back, and the exact magnitude does. -/
def shortest (r : Nat) : Nat :=
  let parts := exact r
  coarsest (readsBack r) parts (parts.log2 * 30103 / 100000 + 1)

/-- The digits of `parts / one` after the point, for `parts` less than `one`: each is the whole
part of ten times what is left, until nothing is left or `places` digits are written. -/
def fractionDigits : (places parts : Nat) → Text
  | 0, _ => []
  | places + 1, parts =>
    if parts = 0 then []
    else Nat.digitChar (10 * parts / one) :: fractionDigits places (10 * parts % one)

/-- A number of parts as a positional decimal. -/
def text (parts : Nat) : Text :=
  let whole := Nat.toDigits 10 (parts / one)
  match fractionDigits 1074 (parts % one) with
  | [] => whole
  | digits => whole ++ '.' :: digits

/-- The text of a double: the shortest decimal that reads back as the same double, and `0` for
both zeros. -/
def display (x : Float) : Text :=
  if x.isNaN then ['N', 'a', 'N']
  else if rank x = 0 then ['0']
  else
    let magnitude := if rank x = infinityRank then ['i', 'n', 'f'] else text (shortest (rank x))
    if hasSign x then '-' :: magnitude else magnitude

/-- The rank of the double nearest to `coefficient * 10 ^ power`. A whole number of 10^401 is past
the largest double, and a coefficient of b bits less than half the least positive one when its
last digit stands more than b + 1099 places behind the point; so no huge power is ever computed. -/
def scaledRank (coefficient : Nat) (power : Int) : Nat :=
  if coefficient = 0 then 0
  else match power with
    | .ofNat p => if 400 < p then infinityRank else nearest (coefficient * 10 ^ p) 1
    | .negSucc p =>
      if coefficient.log2 + 1100 < p + 1 then 0 else nearest coefficient (10 ^ (p + 1))

/-- The number that a run of digits with at most one point denotes, times 10 to the exponent. -/
def read (mantissa : Text) (exponent : Int) : Float :=
  let whole := mantissa.takeWhile (· != '.')
  let fraction := (mantissa.dropWhile (· != '.')).drop 1
  ofRank false
    (scaledRank (Nat.ofDigitChars 10 (whole ++ fraction) 0) (exponent - fraction.length))

end DeskCalc.Decimal
