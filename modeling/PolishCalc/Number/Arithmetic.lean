import PolishCalc.Number.Basic

/-! The four operations on binary64 numbers. On finite numbers each is the exact rational result,
rounded once. -/
namespace PolishCalc.Number

def signedUnits (negative : Bool) (m : Magnitude) : Int :=
  if negative then -(m.units : Int) else m.units

/-- The sum. An exact zero is negative only when both terms are. -/
def add : Number → Number → Number
  | .nan, _ => .nan
  | _, .nan => .nan
  | .infinite s, .infinite t => if s = t then .infinite s else .nan
  | .infinite s, .finite _ _ => .infinite s
  | .finite _ _, .infinite t => .infinite t
  | .finite s a, .finite t b =>
    let sum := signedUnits s a + signedUnits t b
    ofUnits (if sum = 0 then s && t else decide (sum < 0)) sum.natAbs 1

def sub (x y : Number) : Number := add x (neg y)

def mul : Number → Number → Number
  | .nan, _ => .nan
  | _, .nan => .nan
  | .infinite s, .infinite t => .infinite (s ^^ t)
  | .infinite s, .finite t b => if b.isZero then .nan else .infinite (s ^^ t)
  | .finite s a, .infinite t => if a.isZero then .nan else .infinite (s ^^ t)
  | .finite s a, .finite t b => ofUnits (s ^^ t) (a.units * b.units) Magnitude.unitsPerOne

def div : Number → Number → Number
  | .nan, _ => .nan
  | _, .nan => .nan
  | .infinite _, .infinite _ => .nan
  | .infinite s, .finite t _ => .infinite (s ^^ t)
  | .finite s _, .infinite t => .finite (s ^^ t) .zero
  | .finite s a, .finite t b =>
    if b.isZero then
      if a.isZero then .nan else .infinite (s ^^ t)
    else
      ofUnits (s ^^ t) (Magnitude.unitsPerOne * a.units) b.units

instance : Add Number := ⟨add⟩
instance : Sub Number := ⟨sub⟩
instance : Mul Number := ⟨mul⟩
instance : Div Number := ⟨div⟩

end PolishCalc.Number
