/-! Nonnegative finite binary64 values. Each one is a whole number of units, where the unit is
`2 ^ (-1074)`, the least positive value. Exact results of arithmetic and of reading decimals are then
quotients of natural numbers, and `Magnitude.round?` is the only place where anything is rounded. -/
namespace PolishCalc

namespace CorePow

/-- Powers are those of core, whatever else is in scope. -/
scoped instance (priority := 2000) powNat : Pow Nat Nat := instPowNat

end CorePow

open scoped CorePow

-- Irreducible here and for the scales below, so that no proof spells out a number of a thousand bits.
@[irreducible] def roundHalfEven (num den : Nat) : Nat :=
  let q := num / den
  let r := num % den
  if 2 * r < den ∨ 2 * r = den ∧ q % 2 = 0 then q else q + 1

theorem div_le_roundHalfEven (num den : Nat) : num / den ≤ roundHalfEven num den := by
  unfold roundHalfEven
  dsimp only
  split <;> omega

theorem roundHalfEven_le_div_add_one (num den : Nat) :
    roundHalfEven num den ≤ num / den + 1 := by
  unfold roundHalfEven
  dsimp only
  split <;> omega

namespace Magnitude

-- The leading bit of a full significand, which has 53 bits.
def lead : Nat := 2 ^ (52 : Nat)

theorem lead_eq : lead = 4503599627370496 := rfl

def topExponent : Nat := 2045

end Magnitude

/-- The value of `significand * 2 ^ exponent` units. The significand is full unless the exponent is
the least one, so every value has a single form. -/
@[ext] structure Magnitude where
  significand : Nat
  exponent : Nat
  significand_lt : significand < 2 * Magnitude.lead
  exponent_le : exponent ≤ Magnitude.topExponent
  normal : exponent = 0 ∨ Magnitude.lead ≤ significand
deriving DecidableEq

namespace Magnitude

@[irreducible] def unitsPerOne : Nat := 2 ^ (1074 : Nat)

def units (m : Magnitude) : Nat := m.significand * 2 ^ m.exponent

def zero : Magnitude := ⟨0, 0, by decide, by decide, .inl rfl⟩

def isZero (m : Magnitude) : Bool := m.significand == 0

def excess (num den : Nat) : Nat := (num / den).log2 - 52

/-- A quotient with bits in excess has a full significand in the place of its last bit. -/
theorem le_div_of_excess_pos {num den : Nat} (h : 0 < excess num den) :
    lead * 2 ^ excess num den ≤ num / den := by
  have hlog : (num / den).log2 = 52 + excess num den := by
    unfold excess at h ⊢
    omega
  have hne : num / den ≠ 0 := by
    intro h0
    rw [h0, Nat.log2_zero] at hlog
    omega
  calc lead * 2 ^ excess num den = 2 ^ (num / den).log2 := by rw [hlog, Nat.pow_add, lead]
    _ ≤ num / den := Nat.log2_self_le hne

theorem full_of_excess (num den : Nat) :
    excess num den = 0 ∨ lead ≤ roundHalfEven num (den * 2 ^ excess num den) := by
  rcases Nat.eq_zero_or_pos (excess num den) with h | h
  · exact .inl h
  right
  calc lead ≤ num / (den * 2 ^ excess num den) := by
        rw [← Nat.div_div_eq_div_mul, Nat.le_div_iff_mul_le (Nat.two_pow_pos _)]
        exact le_div_of_excess_pos h
    _ ≤ roundHalfEven num (den * 2 ^ excess num den) := div_le_roundHalfEven _ _

def round? (num den : Nat) : Option Magnitude :=
  let s := roundHalfEven num (den * 2 ^ excess num den)
  if hs : s < 2 * lead then
    if he : excess num den ≤ topExponent then
      some ⟨s, excess num den, hs, he, full_of_excess num den⟩
    else none
  else
    -- Rounding up has carried into another bit.
    if he : excess num den + 1 ≤ topExponent then
      some ⟨lead, excess num den + 1, by decide, he, .inr (Nat.le_refl _)⟩
    else none

/-- The place of the value in the order of all values, which is also its bit pattern. -/
def toBits (m : Magnitude) : Nat := m.exponent * lead + m.significand

def bitsLimit : Nat := (topExponent + 2) * lead

theorem toBits_lt (m : Magnitude) : m.toBits < bitsLimit := by
  have hs := m.significand_lt
  have he := m.exponent_le
  unfold toBits bitsLimit
  rw [lead_eq] at *
  unfold topExponent at *
  omega

theorem exponent_le_of_lt_bitsLimit {bits : Nat} (h : bits < bitsLimit) :
    bits / lead - 1 ≤ topExponent := by
  unfold bitsLimit topExponent at *
  rw [lead_eq] at *
  omega

def ofBits? (bits : Nat) : Option Magnitude :=
  if h : bits < bitsLimit then
    have hmod : bits % lead < lead := Nat.mod_lt _ (by decide)
    if bits < lead then
      some ⟨bits % lead, 0, by omega, by decide, .inl rfl⟩
    else
      some ⟨lead + bits % lead, bits / lead - 1, by omega, exponent_le_of_lt_bitsLimit h,
        .inr (Nat.le_add_right _ _)⟩
  else none

theorem ofBits?_eq_none {bits : Nat} (h : bitsLimit ≤ bits) : ofBits? bits = none :=
  dif_neg (Nat.not_lt.2 h)

/-- Every magnitude has a bit pattern of its own. -/
theorem ofBits?_toBits (m : Magnitude) : ofBits? m.toBits = some m := by
  have hs := m.significand_lt
  have hn := m.normal
  rw [ofBits?, dif_pos m.toBits_lt]
  by_cases hlow : m.toBits < lead
  · simp only [hlow, if_true, Option.some.injEq]
    unfold toBits at hlow ⊢
    ext <;> simp only [lead_eq] at * <;> omega
  · simp only [hlow, if_false, Option.some.injEq]
    unfold toBits at hlow ⊢
    ext <;> simp only [lead_eq] at * <;> omega

end Magnitude
end PolishCalc
