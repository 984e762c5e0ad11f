import DeskCalc.Text.Blank

/-!
# Decimal digits of all scripts

The characters of Unicode category Nd come in runs of ten consecutive codes, one run for each
set of digits, from its zero to its nine. The table lists the zeros of Unicode 16 beyond ASCII.
-/

namespace DeskCalc.Text

/-- The code of the zero of each set of decimal digits but that of ASCII. -/
def zeroCodes : List Nat :=
  [0x0660, 0x06F0, 0x07C0, 0x0966, 0x09E6, 0x0A66, 0x0AE6, 0x0B66,
   0x0BE6, 0x0C66, 0x0CE6, 0x0D66, 0x0DE6, 0x0E50, 0x0ED0, 0x0F20, 0x1040,
   0x1090, 0x17E0, 0x1810, 0x1946, 0x19D0, 0x1A80, 0x1A90, 0x1B50, 0x1BB0,
   0x1C40, 0x1C50, 0xA620, 0xA8D0, 0xA900, 0xA9D0, 0xA9F0, 0xAA50, 0xABF0,
   0xFF10, 0x104A0, 0x10D30, 0x10D40, 0x11066, 0x110F0, 0x11136, 0x111D0, 0x112F0,
   0x11450, 0x114D0, 0x11650, 0x116C0, 0x116D0, 0x116DA, 0x11730, 0x118E0, 0x11950,
   0x11BF0, 0x11C50, 0x11D50, 0x11DA0, 0x11F50, 0x16130, 0x16A60, 0x16AC0, 0x16B50,
   0x16D70, 0x1CCF0, 0x1D7CE, 0x1D7D8, 0x1D7E2, 0x1D7EC, 0x1D7F6, 0x1E140, 0x1E2F0,
   0x1E4F0, 0x1E5F1, 0x1E950, 0x1FBF0]

-- The category has 760 characters, ten of them in ASCII.
example : 10 * zeroCodes.length + 10 = 760 := rfl

/-- Whether a character is a decimal digit of some script. Those of ASCII are tested first, as most
texts have no others. -/
def isDecimalDigit (c : Char) : Bool :=
  c.isDigit ||
    (128 ≤ c.toNat && zeroCodes.any fun first => first ≤ c.toNat && c.toNat ≤ first + 9)

/-- The ASCII digits are decimal digits. -/
theorem isDecimalDigit_of_isDigit {c : Char} (h : c.isDigit = true) : isDecimalDigit c = true := by
  simp [isDecimalDigit, h]

end DeskCalc.Text
