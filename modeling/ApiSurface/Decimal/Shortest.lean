/-
The shortest decimal that reads back as a binary floating-point number.

The reals that round to a positive number form an interval around it whose ends
lie half way to its neighbours; the ends belong to it exactly when the mantissa
is even.  For one digit, two digits and so on, the two multiples of the decimal
unit next to the number are tested against that interval, in exact arithmetic on
naturals.  The first unit with a hit wins, and of two hits the nearer one, the
upper one if both are equally near.
-/
import ApiSurface.Decimal.Binary

namespace ApiSurface.Decimal

/-- A decimal number `digits · 10 ^ exponent`. -/
structure Scaled where
  digits : Nat
  exponent : Int
  deriving DecidableEq, Repr

namespace Positive

variable (x : Positive)

/-- The denominator common to the number and to the ends of its interval. -/
def denominator : Nat := Nat.pow 2 (2 - x.exponent).toNat

/-- A count of quarters of the last binary place, over the common denominator. -/
def quarters (count : Nat) : Nat := count * Nat.pow 2 (x.exponent - 2).toNat

/-- The number itself, over the common denominator. -/
def numerator : Nat := x.quarters (4 * x.mantissa)

/-- The lower end of the interval, over the common denominator. -/
def lowerEnd : Nat := x.quarters (4 * x.mantissa - if x.atBinade then 1 else 2)

/-- The upper end of the interval, over the common denominator. -/
def upperEnd : Nat := x.quarters (4 * x.mantissa + 2)

/-- `count · 10 ^ unit` lies in the interval of reals that round to the number. -/
def catches (unit : Int) (count : Nat) : Bool :=
  let point := count * x.denominator * Nat.pow 10 unit.toNat
  let low := x.lowerEnd * Nat.pow 10 (-unit).toNat
  let high := x.upperEnd * Nat.pow 10 (-unit).toNat
  if x.mantissa % 2 = 0 then low ≤ point && point ≤ high else low < point && point < high

/-- How many places the number has before the decimal point: `10 ^ (places - 1)` is at most the
number and `10 ^ places` exceeds it.  Below one the count is zero or negative; `reach` is any
power of ten that lifts the number above one. -/
def places (reach : Nat) : Int :=
  (Nat.toDigits 10 (x.numerator * Nat.pow 10 reach / x.denominator)).length - (reach : Int)

/-- The decimal with the given unit that the interval catches, if there is one. -/
def nearby (unit : Int) : Option Scaled :=
  let scaled := x.numerator * Nat.pow 10 (-unit).toNat
  let divisor := x.denominator * Nat.pow 10 unit.toNat
  let below := scaled / divisor
  let remainder := scaled % divisor
  match x.catches unit below, x.catches unit (below + 1) with
  | true, true => some ⟨if 2 * remainder < divisor then below else below + 1, unit⟩
  | true, false => some ⟨below, unit⟩
  | false, true => some ⟨below + 1, unit⟩
  | false, false => none

/-- The shortest decimal in the interval, with at most `limit` digits. -/
def shortest (reach limit : Nat) : Scaled :=
  let places := x.places reach
  ((List.range limit).findSome? fun (n : Nat) => x.nearby (places - (n + 1))).getD
    ⟨x.numerator * Nat.pow 10 reach / x.denominator, -reach⟩

end Positive

/-- So many digits always suffice to tell the numbers of a format apart. -/
def BinaryFormat.digitLimit (format : BinaryFormat) : Nat :=
  2 + (format.fractionBits + 1) * 30103 / 100000

/-- Every positive number of the format is above `10 ^ (-reach)`. -/
def BinaryFormat.reach (format : BinaryFormat) : Nat :=
  Nat.pow 2 (format.exponentBits - 1) + format.fractionBits

end ApiSurface.Decimal
