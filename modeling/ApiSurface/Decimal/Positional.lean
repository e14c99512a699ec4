/-
Writing floating-point words in positional notation.

The digits are the shortest that read back; there is never an exponent, and a
whole number has no decimal point.
-/
import ApiSurface.Decimal.Shortest

namespace ApiSurface.Decimal

/-- Positional notation: zeros fill up to the decimal point, trailing zeros after it go. -/
def Scaled.text (x : Scaled) : String :=
  let all := Nat.toDigits 10 x.digits
  let trailing := (all.reverse.takeWhile (· = '0')).length
  let digits := all.take (all.length - trailing)
  let exponent := x.exponent + trailing
  let whole := digits.length + exponent
  if 0 ≤ exponent then
    String.ofList (digits ++ List.replicate exponent.toNat '0')
  else if 0 < whole then
    String.ofList (digits.take whole.toNat ++ '.' :: digits.drop whole.toNat)
  else
    String.ofList ('0' :: '.' :: List.replicate (-whole).toNat '0' ++ digits)

/-- The text of a word: the number that it stands for, or one of three special texts. -/
def BinaryFormat.text (format : BinaryFormat) (word : Nat) : String :=
  let sign := if format.isNegative word then "-" else ""
  match format.decode word with
  | .notANumber => "NaN"
  | .infinite => sign ++ "inf"
  | .zero => sign ++ "0"
  | .positive x => sign ++ (x.shortest format.reach format.digitLimit).text

end ApiSurface.Decimal
