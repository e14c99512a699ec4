/-
Whole numbers in decimal.

A number is written in the digits `0` to `9` without leading zeros, and two
numbers with the same text are equal.
-/
namespace ApiSurface

/-- The decimal digits of a natural number. -/
def naturalText (value : Nat) : String := String.ofList (Nat.toDigits 10 value)

/-- The decimal digits of an integer, after a minus sign if it is negative. -/
def integerText (value : Int) : String :=
  if value < 0 then "-" ++ naturalText value.natAbs else naturalText value.natAbs

/-- The text of a natural number determines it. -/
theorem naturalText_inj {m n : Nat} : naturalText m = naturalText n ↔ m = n := by
  constructor
  · intro h
    have digits : Nat.toDigits 10 m = Nat.toDigits 10 n := String.ofList_injective h
    rw [← Nat.ofDigitChars_ten_toDigits (n := m), digits, Nat.ofDigitChars_ten_toDigits]
  · rintro rfl; rfl

end ApiSurface
