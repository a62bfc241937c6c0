import Mathlib.Algebra.Order.Field.Power
import Mathlib.Tactic.FieldSimp
import PolishCalc.Proofs.Nearest

/-! The rationals that are rounded to one finite number. They have no gap, they stay within half a
place of the last bit of the number, and all of them are on its side of zero. A power of ten among them
is closer to the number than what is well below that power, be the number small as it may. -/
namespace PolishCalc

section Nearer
variable {v y q : ℚ}

theorem abs_sub_le_iff_of_lt (h : v < y) : |v - q| ≤ |y - q| ↔ 2 * q ≤ v + y := by
  rw [← sq_le_sq]
  constructor <;> intro hle <;> nlinarith

theorem abs_sub_le_iff_of_gt (h : y < v) : |v - q| ≤ |y - q| ↔ v + y ≤ 2 * q := by
  rw [← sq_le_sq]
  constructor <;> intro hle <;> nlinarith

theorem abs_sub_eq_iff_of_ne (h : y ≠ v) : |v - q| = |y - q| ↔ 2 * q = v + y := by
  rw [abs_eq_abs]
  constructor
  · rintro (heq | heq)
    · exact absurd (by linarith) h
    · linarith
  · intro heq
    exact .inr (by linarith)

end Nearer

namespace Magnitude
variable {q a b : ℚ} {m : Magnitude}

def lastBit (m : Magnitude) : ℚ := 2 ^ ((m.exponent : ℤ) - 1074)

theorem lastBit_pos (m : Magnitude) : 0 < m.lastBit := by
  unfold lastBit
  positivity

theorem toRat_eq_mul_lastBit (m : Magnitude) : m.toRat = m.significand * m.lastBit := rfl

theorem lastBit_le_toRat (hm : m.isZero = false) : m.lastBit ≤ m.toRat := by
  have hne : m.significand ≠ 0 := by simpa [isZero] using hm
  have hone : 1 ≤ (m.significand : ℚ) := Nat.one_le_cast.mpr (Nat.pos_of_ne_zero hne)
  rw [toRat_eq_mul_lastBit]
  exact le_mul_of_one_le_left m.lastBit_pos.le hone

theorem toRat_pos (hm : m.isZero = false) : 0 < m.toRat :=
  m.lastBit_pos.trans_le (lastBit_le_toRat hm)

/-- A value that is nearest to two rationals is nearest to all between them. -/
theorem IsNearest.between (ha : IsNearest a m) (hb : IsNearest b m) (haq : a ≤ q) (hqb : q ≤ b) :
    IsNearest q m where
  nearest s n := by
    rcases lt_trichotomy m.toRat (signedRat s n) with hlt | heq | hgt
    · rw [abs_sub_le_iff_of_lt hlt]
      linarith [(abs_sub_le_iff_of_lt hlt).mp (hb.nearest s n)]
    · rw [heq]
    · rw [abs_sub_le_iff_of_gt hgt]
      linarith [(abs_sub_le_iff_of_gt hgt).mp (ha.nearest s n)]
  even s n hne htie := by
    rw [abs_sub_eq_iff_of_ne hne] at htie
    -- Half way to the other value there is no way on, so `q` is one of the two.
    rcases lt_or_gt_of_ne hne with hgt | hlt
    · have hend := (abs_sub_le_iff_of_gt hgt).mp (ha.nearest s n)
      exact ha.even s n hne ((abs_sub_eq_iff_of_ne hne).mpr (by linarith))
    · have hend := (abs_sub_le_iff_of_lt hlt).mp (hb.nearest s n)
      exact hb.even s n hne ((abs_sub_eq_iff_of_ne hne).mpr (by linarith))

theorem IsNearest.pos (h : IsNearest q m) (hm : m.isZero = false) : 0 < q := by
  have hv := toRat_pos hm
  have hzero : signedRat false zero = 0 := toRat_zero
  have hlt : signedRat false zero < m.toRat := by rwa [hzero]
  have hhalf := (abs_sub_le_iff_of_gt hlt).mp (h.nearest false zero)
  linarith

def RoundsTo (q : ℚ) (negative : Bool) (m : Magnitude) : Prop :=
  IsNearest (if negative then -q else q) m ∧ |q| < 2 ^ 1024 - 2 ^ 970

theorem roundsTo_true_iff : RoundsTo q true m ↔ RoundsTo (-q) false m := by
  simp only [RoundsTo, abs_neg, if_true, Bool.false_eq_true, if_false]

theorem RoundsTo.pos (h : RoundsTo q false m) (hm : m.isZero = false) : 0 < q := h.1.pos hm

theorem RoundsTo.between (ha : RoundsTo a false m) (hb : RoundsTo b false m) (haq : a ≤ q)
    (hqb : q ≤ b) : RoundsTo q false m := by
  refine ⟨ha.1.between hb.1 haq hqb, ?_⟩
  exact abs_lt.mpr ⟨(abs_lt.mp ha.2).1.trans_le haq, hqb.trans_lt (abs_lt.mp hb.2).2⟩

section Quotient
variable {num den : Nat}

theorem roundsTo_iff_round? (hden : 0 < den) (hq : (num : ℚ) / den = unitsPerOne * q) :
    RoundsTo q false m ↔ round? num den = some m := by
  have hnonneg : 0 ≤ q := by
    have hquotient : (0 : ℚ) ≤ num / den := by positivity
    rw [hq] at hquotient
    exact nonneg_of_mul_nonneg_right hquotient unitsPerOne_pos_rat
  rw [round?_eq_some_iff hden hq, and_comm, RoundsTo, abs_of_nonneg hnonneg]
  rfl

theorem exists_quotient (hq : 0 ≤ q) :
    ∃ num den : Nat, 0 < den ∧ (num : ℚ) / den = unitsPerOne * q := by
  refine ⟨unitsPerOne * q.num.toNat, q.den, q.den_pos, ?_⟩
  have hnum : ((q.num.toNat : Nat) : ℚ) = q.num := by
    exact_mod_cast Int.toNat_of_nonneg (Rat.num_nonneg.mpr hq)
  rw [Nat.cast_mul, hnum, mul_div_assoc, Rat.num_div_den]

theorem excess_le_of_round? (h : round? num den = some m) : excess num den ≤ m.exponent := by
  unfold round? at h
  dsimp only at h
  split at h <;> split at h
  · obtain rfl := Option.some.inj h
    exact Nat.le_refl _
  · cases h
  · obtain rfl := Option.some.inj h
    exact Nat.le_succ _
  · cases h

/-- Rounding moves a quotient by half a place of the last bit at most. -/
theorem abs_units_sub_le (hden : 0 < den) (h : round? num den = some m) :
    |(m.units : ℚ) - num / den| ≤ 2 ^ m.exponent / 2 := by
  have hexcess := excess_le_of_round? h
  rw [(units_of_round? h).1]
  generalize excess num den = e at hexcess
  have hpow : (0 : ℚ) < 2 ^ e := by positivity
  have hround := abs_roundHalfEven_sub num (Nat.mul_pos hden (Nat.two_pow_pos e))
  generalize roundHalfEven num (den * 2 ^ e) = s at hround
  have hhalf : |(s : ℚ) - num / (den * 2 ^ e : Nat)| ≤ 1 / 2 := hround.elim le_of_lt fun h => h.1.le
  have hscale : (((s * 2 ^ e : Nat) : ℚ) - num / den) = (s - num / (den * 2 ^ e : Nat)) * 2 ^ e := by
    push_cast
    field_simp
  calc |((s * 2 ^ e : Nat) : ℚ) - num / den|
      = |(s : ℚ) - num / (den * 2 ^ e : Nat)| * 2 ^ e := by rw [hscale, abs_mul, abs_of_pos hpow]
    _ ≤ 1 / 2 * 2 ^ e := mul_le_mul_of_nonneg_right hhalf hpow.le
    _ ≤ 1 / 2 * 2 ^ m.exponent := by gcongr; norm_num
    _ = 2 ^ m.exponent / 2 := by ring

end Quotient

theorem RoundsTo.abs_sub_le (h : RoundsTo q false m) (hq : 0 ≤ q) :
    |m.toRat - q| ≤ m.lastBit / 2 := by
  obtain ⟨num, den, hden, hquotient⟩ := exists_quotient hq
  have hunits := abs_units_sub_le hden ((roundsTo_iff_round? hden hquotient).mp h)
  have hone := unitsPerOne_pos_rat
  have hlast : m.lastBit = 2 ^ m.exponent / unitsPerOne := by
    rw [cast_unitsPerOne, lastBit, zpow_sub₀ two_ne_zero, zpow_natCast]
    rfl
  have hscale : m.toRat - q = (m.units - num / den) / unitsPerOne := by
    rw [hquotient, toRat_eq, sub_div, mul_div_cancel_left₀ _ hone.ne']
  rw [hscale, abs_div, abs_of_pos hone, hlast, div_right_comm]
  exact div_le_div_of_nonneg_right hunits hone.le

/-- Of the powers of ten, the one next to the least values is a little more than two units. -/
theorem lastBit_of_exponent (h : m.exponent = 0) :
    2 * m.lastBit < 10 ^ (-323 : ℤ) ∧ 20 * (10 : ℚ) ^ (-323 : ℤ) < 41 * m.lastBit := by
  rw [lastBit, h]
  decide +kernel

theorem eq_of_lastBit_lt {p : ℤ} (h : m.exponent = 0) (hlt : m.lastBit < 10 ^ p)
    (hle : 10 ^ p ≤ 10 * m.lastBit) : p = -323 := by
  obtain ⟨hlow, hhigh⟩ := lastBit_of_exponent h
  have habove : (10 : ℚ) ^ (-324 : ℤ) < 10 ^ p := by
    have hstep : (10 : ℚ) ^ (-324 : ℤ) = 10 ^ (-323 : ℤ) / 10 := by decide +kernel
    linarith
  have hbelow : (10 : ℚ) ^ p < 10 ^ (-322 : ℤ) := by
    have hstep : (10 : ℚ) ^ (-322 : ℤ) = 10 ^ (-323 : ℤ) * 10 := by decide +kernel
    linarith [m.lastBit_pos]
  rw [zpow_lt_zpow_iff_right₀ (by norm_num)] at habove hbelow
  omega

section TenPow
variable {p : ℤ} (hm : m.isZero = false) (hq : RoundsTo q false m) (hten : RoundsTo (10 ^ p) false m)
variable (hfar : q ≤ 9 / 10 * 10 ^ p) (hlt : m.toRat < 10 ^ p)
include hm hq hten hfar hlt

/-- A value to which a power of ten above it is rounded, and also something at nine tenths of that power
or less, has a significand of one digit. There is only one such value, of two units. -/
theorem RoundsTo.two_units_of_wide : m.exponent = 0 ∧ m.significand = 2 ∧ p = -323 := by
  have hqle := abs_le.mp (hq.abs_sub_le (hq.pos hm).le)
  have htenle := abs_le.mp (hten.abs_sub_le (hten.pos hm).le)
  have hleast := lastBit_le_toRat hm
  have hbit := m.lastBit_pos
  rw [toRat_eq_mul_lastBit] at hqle htenle hlt hleast
  have hspan : (10 : ℚ) ^ p ≤ 10 * m.lastBit := by linarith
  have hsmall : m.significand < 10 := by
    have hcast : (m.significand : ℚ) < 10 := lt_of_mul_lt_mul_right (hlt.trans_le hspan) hbit.le
    exact_mod_cast hcast
  have hexponent : m.exponent = 0 := m.normal.resolve_right (by rw [lead_eq]; omega)
  obtain ⟨hlow, hhigh⟩ := lastBit_of_exponent hexponent
  obtain rfl := eq_of_lastBit_lt hexponent (hleast.trans_lt hlt) hspan
  refine ⟨hexponent, ?_, rfl⟩
  have hle : m.significand < 3 := by
    have hcast : (m.significand : ℚ) < 3 := lt_of_mul_lt_mul_right (by linarith) hbit.le
    exact_mod_cast hcast
  have hge : 1 < m.significand := by
    have hcast : 1 < (m.significand : ℚ) := lt_of_mul_lt_mul_right (by linarith) hbit.le
    exact_mod_cast hcast
  omega

/-- A power of ten that is rounded to a value below it is closer to the value than all that is
rounded to the value from nine tenths of that power or less. -/
theorem RoundsTo.ten_pow_closer : 10 ^ p - m.toRat ≤ |q - m.toRat| := by
  obtain ⟨hexponent, htwo, rfl⟩ := hq.two_units_of_wide hm hten hfar hlt
  obtain ⟨hlow, hhigh⟩ := lastBit_of_exponent hexponent
  have hvalue : m.toRat = 2 * m.lastBit := by rw [toRat_eq_mul_lastBit, htwo, Nat.cast_ofNat]
  rw [hvalue, abs_sub_comm]
  refine le_trans ?_ (le_abs_self _)
  linarith

end TenPow
end Magnitude
end PolishCalc
