import PolishCalc.Number.Magnitude

/-! The shortest decimal that reads back as a given value. Decimals are counted in grains of
`10 ^ (-1074)`: one unit is `5 ^ 1074` grains, so every magnitude is also a whole number of grains,
and a decimal with few significant digits is a multiple of a large power of ten. -/
namespace PolishCalc.Decimal

open scoped CorePow

@[irreducible] def grainsPerUnit : Nat := 5 ^ (1074 : Nat)

@[irreducible] def grainsPerOne : Nat := 10 ^ (1074 : Nat)

def grains (m : Magnitude) : Nat := grainsPerUnit * m.units

def nearest? (d : Nat) : Option Magnitude := Magnitude.round? d grainsPerUnit

/-- Of the two multiples of `grid` around the value of `m`, the closer one that reads back as `m`;
the greater one when they are equally close. -/
def neighbour? (m : Magnitude) (grid : Nat) : Option Nat :=
  let below := grains m / grid * grid
  let above := below + grid
  if nearest? below = some m then
    if nearest? above = some m ∧ below + above ≤ 2 * grains m then some above else some below
  else
    if nearest? above = some m then some above else none

def shortestFrom (m : Magnitude) : Nat → Nat
  -- On the grid of single grains the value itself is the decimal.
  | 0 => grains m
  | j + 1 =>
    match neighbour? m (10 ^ (j + 1)) with
    | some d => d
    | none => shortestFrom m j

/-- An exponent of ten that is above `n`, and close to the least one. -/
def exponentAbove (n : Nat) : Nat := (n.log2 + 1) * 28 / 93 + 1

/-- Ninety-three binary digits are at most twenty-eight decimal ones. -/
theorem lt_pow_exponentAbove (n : Nat) : n < 10 ^ exponentAbove n := by
  have hbase : (2 ^ 93) ^ (n.log2 + 1) ≤ (10 ^ 28) ^ (n.log2 + 1) :=
    Nat.pow_le_pow_left (by decide) _
  have hexp : 28 * (n.log2 + 1) ≤ exponentAbove n * 93 := by
    unfold exponentAbove
    omega
  have hpow : (2 ^ (n.log2 + 1)) ^ 93 ≤ (10 ^ exponentAbove n) ^ 93 := by
    rw [← Nat.pow_mul, ← Nat.pow_mul] at hbase ⊢
    rw [Nat.mul_comm (n.log2 + 1) 93]
    exact Nat.le_trans hbase (Nat.pow_le_pow_right (by decide) hexp)
  have hle : 2 ^ (n.log2 + 1) ≤ 10 ^ exponentAbove n :=
    (Nat.pow_le_pow_iff_left (by decide)).1 hpow
  exact Nat.lt_of_lt_of_le Nat.lt_log2_self hle

def shortest (m : Magnitude) : Nat := shortestFrom m (exponentAbove (grains m))

def fractionDigits : Nat → Nat → List Char
  | 0, _ => []
  | places + 1, d =>
    if d = 0 then [] else (d / 10 ^ places).digitChar :: fractionDigits places (d % 10 ^ places)

def render (d : Nat) : List Char :=
  let fraction := fractionDigits 1074 (d % grainsPerOne)
  Nat.toDigits 10 (d / grainsPerOne) ++ if fraction.isEmpty then [] else '.' :: fraction

end PolishCalc.Decimal
