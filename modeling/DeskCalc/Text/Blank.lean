/-!
# Texts and blanks

A text is worked as the list of its characters, so that reading it is recursion on a list.
The blanks are the characters with the Unicode property White_Space; trimming a text removes
them from its ends, and nothing else.
-/

namespace DeskCalc

/-- A text, as the list of its characters. -/
abbrev Text := List Char

namespace Text

/-- The first and last code of each run of characters with the property White_Space. -/
def blankRanges : List (Nat × Nat) :=
  [(0x09, 0x0D), (0x20, 0x20), (0x85, 0x85), (0xA0, 0xA0), (0x1680, 0x1680),
   (0x2000, 0x200A), (0x2028, 0x2029), (0x202F, 0x202F), (0x205F, 0x205F), (0x3000, 0x3000)]

-- The property has 25 characters.
example : (blankRanges.map fun run => run.2 + 1 - run.1).foldr (· + ·) 0 = 25 := rfl

/-- Whether a character has the Unicode property White_Space. -/
def isBlank (c : Char) : Bool :=
  blankRanges.any fun run => run.1 ≤ c.toNat && c.toNat ≤ run.2

/-- The text without its trailing blanks. -/
def trimEnd (t : Text) : Text :=
  (t.reverse.dropWhile isBlank).reverse

/-- The text without its leading and trailing blanks. -/
def trim (t : Text) : Text :=
  trimEnd (t.dropWhile isBlank)

/-- The texts in order, with one space between two neighbours. -/
def spaced (ts : List Text) : Text :=
  [' '].intercalate ts

end Text

end DeskCalc
