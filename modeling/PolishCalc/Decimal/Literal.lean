import PolishCalc.Number.Basic

/-! Decimal literals: digits, or digits, a point and more digits. The exact value is rounded once. -/
namespace PolishCalc.Decimal

open scoped CorePow

/-- The nonnegative number nearest to the decimal with these digits before and after its point;
`none` when it would not be finite. -/
def read? (whole fraction : List Char) : Option Number :=
  let digits := Nat.ofDigitChars 10 (whole ++ fraction) 0
  (Magnitude.round? (Magnitude.unitsPerOne * digits) (10 ^ fraction.length)).map (.finite false)

end PolishCalc.Decimal
