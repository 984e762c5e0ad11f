/-!
# Settings

How many decimal places an answer keeps, and two limits that guard against large input. A function
that sets one of them moves a value out of bounds to the nearest bound. Settings that are written
down as a record are taken as they are, so no bound can be relied on.
-/

namespace DeskCalc

/-- The settings of a session. -/
structure Settings where
  /-- The decimal places of an answer. A double has no more than 15 to offer. -/
  decimals : Nat := 12
  /-- The greatest height of an operation or a call. -/
  maxHeight : Nat := 256
  /-- The greatest length of the canonical text, in characters. -/
  maxLength : Nat := 1024

namespace Settings

/-- The settings that apply unless others are given. -/
def standard : Settings := {}

/-- The settings with another number of decimal places, at most 15. -/
def withDecimals (s : Settings) (n : Nat) : Settings :=
  { s with decimals := min n 15 }

/-- The settings with another limit of height, at least 1. -/
def withMaxHeight (s : Settings) (n : Nat) : Settings :=
  { s with maxHeight := max n 1 }

/-- The settings with another limit of length, at least 1. -/
def withMaxLength (s : Settings) (n : Nat) : Settings :=
  { s with maxLength := max n 1 }

end Settings

end DeskCalc
