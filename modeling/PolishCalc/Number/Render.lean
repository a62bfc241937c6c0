import PolishCalc.Number.Basic
import PolishCalc.Decimal.Shortest

/-! The text of a number: the shortest digits that read back, never an exponent, and a minus sign
exactly when the sign bit is set. -/
namespace PolishCalc.Number

def signText (negative : Bool) : List Char := if negative then ['-'] else []

def render : Number → List Char
  | .finite s m => signText s ++ Decimal.render (Decimal.shortest m)
  | .infinite s => signText s ++ "Infinity".toList
  | .nan => "NaN".toList

instance : ToString Number := ⟨fun x => String.ofList x.render⟩

end PolishCalc.Number
