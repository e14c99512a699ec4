/-
Reading sizes: decimal numbers that fit into 64 bits.

An arity is written in decimal digits after a mark.  Only ASCII digits count, a
leading plus sign is allowed, leading zeros are, and a number of `2 ^ 64` or more
is no size.  Sizes are added in 64 bits too, so two of them may have no sum.
-/
namespace ApiSurface.Text

/-- The value of a text of ASCII digits, read after the value `acc`. -/
def digitsValue (acc : Nat) : List Char → Option Nat
  | [] => some acc
  | c :: rest => if c.isDigit then digitsValue (acc * 10 + (c.toNat - 48)) rest else none

/-- The first number that is no size. -/
def sizeLimit : Nat := UInt64.size

/-- The digits of a size without a sign. -/
def readDigits (text : List Char) : Option Nat :=
  if text.isEmpty then none else (digitsValue 0 text).filter (· < sizeLimit)

/-- Reads a size, with or without a leading plus sign. -/
def readSize : List Char → Option Nat
  | '+' :: digits => readDigits digits
  | digits => readDigits digits

/-- The sum of two sizes, if it is one. -/
def addSizes (a b : Nat) : Option Nat := if a + b < sizeLimit then some (a + b) else none

end ApiSurface.Text
