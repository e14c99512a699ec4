/-
Binary floating-point words.

A word of an interchange format holds a sign, a biased exponent and a fraction.
`BinaryFormat.decode` reads the word as the number it stands for: the finite
ones are `mantissa · 2 ^ exponent` with natural `mantissa`.
-/
namespace ApiSurface.Decimal

/-- An interchange format: how many bits the fraction and the exponent take. -/
structure BinaryFormat where
  fractionBits : Nat
  exponentBits : Nat
  deriving DecidableEq, Repr

/-- The 32-bit format. -/
def BinaryFormat.single : BinaryFormat := ⟨23, 8⟩

/-- The 64-bit format. -/
def BinaryFormat.double : BinaryFormat := ⟨52, 11⟩

/-- A positive number `mantissa · 2 ^ exponent` of a format.  `atBinade` marks the smallest
mantissa of a binade, below which the numbers lie twice as close together. -/
structure Positive where
  mantissa : Nat
  exponent : Int
  atBinade : Bool
  deriving DecidableEq, Repr

/-- What the bits of a word say, the sign apart. -/
inductive Magnitude where
  | notANumber
  | infinite
  | zero
  | positive (value : Positive)
  deriving DecidableEq, Repr

namespace BinaryFormat

variable (format : BinaryFormat)

/-- The largest biased exponent, kept for infinities and for what is no number. -/
def topExponent : Nat := Nat.pow 2 format.exponentBits - 1

/-- The exponent of the unit of the smallest numbers. -/
def leastExponent : Int := 2 - Int.pow 2 (format.exponentBits - 1) - format.fractionBits

/-- The sign bit of a word. -/
def isNegative (word : Nat) : Bool :=
  word.testBit (format.fractionBits + format.exponentBits)

/-- Reads all of a word but its sign. -/
def decode (word : Nat) : Magnitude :=
  let fraction := word % Nat.pow 2 format.fractionBits
  let biased := word / Nat.pow 2 format.fractionBits % Nat.pow 2 format.exponentBits
  if biased = format.topExponent then
    if fraction = 0 then .infinite else .notANumber
  else if biased = 0 then
    if fraction = 0 then .zero else .positive ⟨fraction, format.leastExponent, false⟩
  else
    .positive ⟨Nat.pow 2 format.fractionBits + fraction,
      format.leastExponent + (biased - 1 : Nat), fraction = 0⟩

end BinaryFormat

end ApiSurface.Decimal
