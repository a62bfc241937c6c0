import Mathlib.Algebra.Order.Field.Rat
import Mathlib.Algebra.Order.Group.Abs
import Mathlib.Data.Nat.Cast.Order.Field
import Mathlib.Tactic.Linarith
import Mathlib.Tactic.Positivity
import Mathlib.Tactic.Ring
import PolishCalc.Proofs.ReadBack

/-! Rounding is correct: `Magnitude.round?` finds the finite value nearest to a rational, the one
with the even significand when two are equally near, and finds none exactly when the rational is
half a unit of the last place or more above the greatest finite value. -/
namespace PolishCalc

/-- `a` is nearer to `x` than `b`, or as near and `s`, which goes with `a`, is the even one of `s`
and `t`. -/
def Prefers (x a b : ℚ) (s t : Nat) : Prop :=
  |a - x| < |b - x| ∨ |a - x| = |b - x| ∧ s % 2 = 0 ∧ t % 2 = 1

section Prefers
variable {x a b c : ℚ} {s t : Nat}

theorem Prefers.le (h : Prefers x a b s t) : |a - x| ≤ |b - x| :=
  h.elim le_of_lt fun htie => htie.1.le

/-- The scale does not matter. -/
theorem prefers_mul_iff (hc : 0 < c) :
    Prefers (x * c) (a * c) (b * c) s t ↔ Prefers x a b s t := by
  simp only [Prefers, ← sub_mul, abs_mul, abs_of_pos hc, mul_lt_mul_iff_left₀ hc,
    mul_left_inj' hc.ne']

end Prefers

section RoundHalfEven
variable {den : Nat}

theorem cast_div_add_mod (num : Nat) (hden : 0 < den) :
    (num : ℚ) / den = (num / den : Nat) + (num % den : Nat) / (den : ℚ) := by
  have hden' : (den : ℚ) ≠ 0 := by positivity
  have h : (den : ℚ) * (num / den : Nat) + (num % den : Nat) = num := by
    exact_mod_cast Nat.div_add_mod num den
  rw [div_eq_iff hden', add_mul, div_mul_cancel₀ _ hden', mul_comm, h]

theorem abs_roundHalfEven_sub (num : Nat) (hden : 0 < den) :
    |(roundHalfEven num den : ℚ) - num / den| < 1 / 2 ∨
      |(roundHalfEven num den : ℚ) - num / den| = 1 / 2 ∧ roundHalfEven num den % 2 = 0 := by
  have hden' : (0 : ℚ) < den := by positivity
  have hmod : num % den < den := Nat.mod_lt num hden
  rw [cast_div_add_mod num hden]
  unfold roundHalfEven
  dsimp only
  generalize num / den = q
  generalize num % den = r at hmod
  have hnonneg : (0 : ℚ) ≤ r / den := by positivity
  have hlt : (r : ℚ) / den < 1 := by
    rw [div_lt_one hden']
    exact_mod_cast hmod
  have hcompare :
      ((r : ℚ) / den < 1 / 2 ↔ 2 * r < den) ∧ ((r : ℚ) / den = 1 / 2 ↔ 2 * r = den) := by
    rw [div_lt_iff₀ hden', div_eq_iff hden'.ne', ← Nat.cast_lt (α := ℚ), ← Nat.cast_inj (R := ℚ)]
    push_cast
    constructor <;> constructor <;> intro h <;> linarith
  generalize (r : ℚ) / den = x at hnonneg hlt hcompare
  split
  · rename_i h
    rw [sub_add_cancel_left, abs_neg, abs_of_nonneg hnonneg]
    rcases h with h | ⟨h, heven⟩
    · exact .inl (hcompare.1.2 h)
    · exact .inr ⟨hcompare.2.2 h, heven⟩
  · rename_i h
    have hle : 1 / 2 ≤ x := by
      rw [← not_lt, hcompare.1]
      omega
    rw [Nat.cast_add, Nat.cast_one, add_sub_add_left_eq_sub, abs_of_nonneg (by linarith)]
    rcases hle.lt_or_eq with hgt | heq
    · exact .inl (by linarith)
    · have := hcompare.2.1 heq.symm
      exact .inr ⟨by linarith, by omega⟩

theorem roundHalfEven_nearest {num k : Nat} (hden : 0 < den) (hk : k ≠ roundHalfEven num den) :
    Prefers (num / den) (roundHalfEven num den) k (roundHalfEven num den) k := by
  have hround := abs_roundHalfEven_sub num hden
  generalize roundHalfEven num den = s at hk hround ⊢
  generalize (num : ℚ) / den = x at hround ⊢
  have hdist : 1 ≤ |(k : ℚ) - s| := by
    have : 1 ≤ |(k : ℤ) - s| := Int.one_le_abs (by omega)
    exact_mod_cast this
  have htriangle : |(k : ℚ) - s| ≤ |(k : ℚ) - x| + |s - x| := by
    rw [abs_sub_comm (s : ℚ) x]
    exact abs_sub_le _ _ _
  rcases hround with hnear | ⟨hhalf, heven⟩
  · exact .inl (by linarith)
  · rcases lt_or_ge |(s : ℚ) - x| |(k : ℚ) - x| with hlt | hge
    · exact .inl hlt
    · have heq : |(k : ℚ) - s| = 1 := by linarith
      have hstep : |(k : ℤ) - s| = 1 := by exact_mod_cast heq
      rw [abs_eq zero_le_one] at hstep
      exact .inr ⟨by linarith, heven, by omega⟩

/-- The same in any place `e`, as for a significand. -/
theorem roundHalfEven_nearest_place {num k e : Nat} (hden : 0 < den)
    (hk : k ≠ roundHalfEven num (den * 2 ^ e)) :
    Prefers (num / den) (roundHalfEven num (den * 2 ^ e) * 2 ^ e : Nat) (k * 2 ^ e : Nat)
      (roundHalfEven num (den * 2 ^ e)) k := by
  have hpow : (0 : ℚ) < 2 ^ e := by positivity
  have hplace (n : Nat) : ((n * 2 ^ e : Nat) : ℚ) = n * 2 ^ e := by
    rw [Nat.cast_mul, Nat.cast_pow, Nat.cast_ofNat]
  have hquotient : (num : ℚ) / den = num / (den * 2 ^ e : Nat) * 2 ^ e := by
    rw [hplace, div_mul_eq_div_div, div_mul_cancel₀ _ hpow.ne']
  rw [hquotient, hplace (roundHalfEven _ _), hplace k, prefers_mul_iff hpow]
  exact roundHalfEven_nearest (Nat.mul_pos hden (Nat.two_pow_pos e)) hk

/-- Rounding reaches an even number from a half below it on. -/
theorem two_mul_le_roundHalfEven_iff (num n : Nat) (hden : 0 < den) :
    2 * n ≤ roundHalfEven num den ↔ 2 * (n : ℚ) - 1 / 2 ≤ num / den := by
  have hround := abs_roundHalfEven_sub num hden
  generalize roundHalfEven num den = s at hround ⊢
  generalize (num : ℚ) / den = x at hround ⊢
  constructor
  · intro hle
    have hle' : 2 * (n : ℚ) ≤ s := by exact_mod_cast hle
    have hhalf : |(s : ℚ) - x| ≤ 1 / 2 := hround.elim le_of_lt fun h => h.1.le
    linarith [(abs_le.mp hhalf).2]
  · intro hx
    by_contra hlt
    rcases hround with hnear | ⟨hhalf, heven⟩
    · have hlt' : (s : ℚ) + 1 ≤ 2 * n := by exact_mod_cast (by omega : s + 1 ≤ 2 * n)
      linarith [(abs_lt.mp hnear).1]
    · have hlt' : (s : ℚ) + 2 ≤ 2 * n := by exact_mod_cast (by omega : s + 2 ≤ 2 * n)
      linarith [(abs_le.mp hhalf.le).1]

end RoundHalfEven

namespace Magnitude

/-- A magnitude is a multiple of the place `e`, or too small for a full significand there. -/
theorem units_eq_mul_or_lt (n : Magnitude) (e : Nat) :
    n.units = n.significand * 2 ^ (n.exponent - e) * 2 ^ e ∨
      0 < e ∧ n.units < lead * 2 ^ e := by
  rcases Nat.lt_or_ge n.exponent e with hlt | hge
  · right
    refine ⟨by omega, ?_⟩
    calc n.units < 2 * lead * 2 ^ n.exponent :=
          Nat.mul_lt_mul_of_pos_right n.significand_lt (Nat.two_pow_pos _)
      _ = lead * 2 ^ (n.exponent + 1) := by rw [Nat.pow_succ]; ac_rfl
      _ ≤ lead * 2 ^ e := Nat.mul_le_mul_left _ (Nat.pow_le_pow_right (by decide) hlt)
  · left
    rw [Nat.mul_assoc, ← Nat.pow_add, Nat.sub_add_cancel hge, units]

theorem units_injective {m n : Magnitude} (h : m.units = n.units) : m = n := by
  have hm := round?_units m
  rw [h, round?_units n] at hm
  exact (Option.some.inj hm).symm

section Round
variable {num den : Nat} {m : Magnitude}

/-- The quotient has no bit above a full significand. -/
theorem div_lt_of_excess (num den : Nat) : num / den < 2 * lead * 2 ^ excess num den := by
  have hlog : num / den < 2 ^ ((num / den).log2 + 1) := Nat.lt_log2_self
  have hle : (num / den).log2 + 1 ≤ 53 + excess num den := by
    unfold excess
    omega
  calc num / den < 2 ^ (53 + excess num den) :=
        Nat.lt_of_lt_of_le hlog (Nat.pow_le_pow_right (by decide) hle)
    _ = 2 * lead * 2 ^ excess num den := Nat.pow_add 2 53 _

theorem roundHalfEven_le_of_excess (num den : Nat) :
    roundHalfEven num (den * 2 ^ excess num den) ≤ 2 * lead := by
  have hlt : num / (den * 2 ^ excess num den) < 2 * lead := by
    rw [← Nat.div_div_eq_div_mul, Nat.div_lt_iff_lt_mul (Nat.two_pow_pos _)]
    exact div_lt_of_excess num den
  exact Nat.le_trans (roundHalfEven_le_div_add_one _ _) hlt

/-- The value found is the rounded quotient, be it that rounding carries into a new leading bit. -/
theorem units_of_round? (h : round? num den = some m) :
    m.units = roundHalfEven num (den * 2 ^ excess num den) * 2 ^ excess num den ∧
      (roundHalfEven num (den * 2 ^ excess num den) % 2 = 0 → m.significand % 2 = 0) := by
  have hle := roundHalfEven_le_of_excess num den
  unfold round? at h
  dsimp only at h
  split at h
  · split at h
    · obtain rfl := Option.some.inj h
      exact ⟨rfl, id⟩
    · cases h
  · rename_i hcarry
    have hs : roundHalfEven num (den * 2 ^ excess num den) = 2 * lead := by omega
    split at h
    · obtain rfl := Option.some.inj h
      refine ⟨?_, fun _ => (by decide : lead % 2 = 0)⟩
      rw [hs, units, Nat.pow_succ]
      ac_rfl
    · cases h

/-- No other magnitude is preferred to the one that is found. -/
theorem round?_nearest (hden : 0 < den) (h : round? num den = some m) {n : Magnitude}
    (hn : n ≠ m) : Prefers (num / den) m.units n.units m.significand n.significand := by
  obtain ⟨hunits, heven⟩ := units_of_round? h
  have hlow : 0 < excess num den → lead * 2 ^ excess num den ≤ num / den := le_div_of_excess_pos
  generalize excess num den = e at hunits heven hlow
  have hother {k : Nat} (hk : k ≠ roundHalfEven num (den * 2 ^ e)) :=
    roundHalfEven_nearest_place hden hk
  rw [← hunits] at hother
  generalize roundHalfEven num (den * 2 ^ e) = s at hunits heven hother
  rcases units_eq_mul_or_lt n e with hmul | ⟨hpos, hlt⟩
  · have hk : n.significand * 2 ^ (n.exponent - e) ≠ s := by
      intro hk
      exact hn (units_injective (by rw [hmul, hunits, hk]))
    rw [hmul]
    refine (hother hk).imp id fun ⟨hdist, hs, hodd⟩ => ⟨hdist, heven hs, ?_⟩
    exact Nat.odd_iff.mp (Nat.odd_mul.mp (Nat.odd_iff.mpr hodd)).1
  · left
    -- The least full significand in this place is nearer than `n`, and no nearer than `m`.
    have hfull : |(m.units : ℚ) - num / den| ≤ |((lead * 2 ^ e : Nat) : ℚ) - num / den| := by
      by_cases hs : lead = s
      · rw [hunits, hs]
      · exact (hother hs).le
    have hlead : ((lead * 2 ^ e : Nat) : ℚ) ≤ num / den :=
      (Nat.cast_le.mpr (hlow hpos)).trans Nat.cast_div_le
    have hunder : (n.units : ℚ) < (lead * 2 ^ e : Nat) := Nat.cast_lt.mpr hlt
    calc |(m.units : ℚ) - num / den| ≤ |((lead * 2 ^ e : Nat) : ℚ) - num / den| := hfull
      _ < |(n.units : ℚ) - num / den| := by
          rw [abs_of_nonpos (by linarith), abs_of_nonpos (by linarith)]
          linarith

/-- No value is found exactly when the exponent is beyond the greatest one, be it by a carry. -/
theorem round?_eq_none_iff_excess :
    round? num den = none ↔ topExponent < excess num den ∨
      excess num den = topExponent ∧ 2 * lead ≤ roundHalfEven num (den * 2 ^ excess num den) := by
  unfold round?
  dsimp only
  split <;> split <;> simp <;> omega

/-- The values end half a place of the last bit above the greatest one. -/
theorem round?_eq_none_iff (hden : 0 < den) :
    round? num den = none ↔ (2 * (lead : ℚ) - 1 / 2) * 2 ^ topExponent ≤ num / den := by
  rw [round?_eq_none_iff_excess]
  have hpow : (0 : ℚ) < 2 ^ topExponent := by positivity
  rcases lt_trichotomy (excess num den) topExponent with hlt | heq | hgt
  · have hunder : (num : ℚ) / den < lead * 2 ^ topExponent :=
      calc (num : ℚ) / den < (2 * lead * 2 ^ excess num den : Nat) := by
            rw [div_lt_iff₀ (by positivity)]
            exact_mod_cast (Nat.div_lt_iff_lt_mul hden).mp (div_lt_of_excess num den)
        _ = (lead * 2 ^ (excess num den + 1) : Nat) := by
            rw [Nat.pow_succ, Nat.mul_comm 2 lead, Nat.mul_assoc, Nat.mul_comm 2]
        _ ≤ (lead * 2 ^ topExponent : Nat) :=
            Nat.cast_le.mpr (Nat.mul_le_mul_left _ (Nat.pow_le_pow_right (by decide) hlt))
        _ = lead * 2 ^ topExponent := by push_cast; rfl
    have hlead : (lead : ℚ) * 2 ^ topExponent ≤ (2 * (lead : ℚ) - 1 / 2) * 2 ^ topExponent := by
      refine mul_le_mul_of_nonneg_right ?_ hpow.le
      norm_num [lead_eq]
    constructor
    · omega
    · intro hle
      linarith
  · have hscale : 0 < den * 2 ^ topExponent := Nat.mul_pos hden (Nat.two_pow_pos _)
    rw [heq, two_mul_le_roundHalfEven_iff num lead hscale, Nat.cast_mul, Nat.cast_pow,
      Nat.cast_ofNat, div_mul_eq_div_div, le_div_iff₀ hpow]
    simp
  · refine iff_of_true (.inl hgt) ?_
    calc (2 * (lead : ℚ) - 1 / 2) * 2 ^ topExponent
        ≤ 2 * lead * 2 ^ topExponent := mul_le_mul_of_nonneg_right (by linarith) hpow.le
      _ = (lead * 2 ^ (topExponent + 1) : Nat) := by push_cast; ring
      _ ≤ (lead * 2 ^ excess num den : Nat) :=
          Nat.cast_le.mpr (Nat.mul_le_mul_left _ (Nat.pow_le_pow_right (by decide) hgt))
      _ ≤ (num / den : Nat) := Nat.cast_le.mpr (le_div_of_excess_pos (Nat.zero_lt_of_lt hgt))
      _ ≤ num / den := Nat.cast_div_le

end Round

def toRat (m : Magnitude) : ℚ := m.significand * 2 ^ ((m.exponent : ℤ) - 1074)

def signedRat (negative : Bool) (m : Magnitude) : ℚ := if negative then -m.toRat else m.toRat

/-- No finite number is nearer to `q` than `m`, and another one is as near only if the significand
of `m` is even. -/
structure IsNearest (q : ℚ) (m : Magnitude) : Prop where
  nearest : ∀ negative n, |m.toRat - q| ≤ |signedRat negative n - q|
  even : ∀ negative n, signedRat negative n ≠ m.toRat →
    |m.toRat - q| = |signedRat negative n - q| → m.significand % 2 = 0

theorem unitsPerOne_pos_rat : (0 : ℚ) < unitsPerOne := Nat.cast_pos.mpr Decimal.unitsPerOne_pos

theorem cast_unitsPerOne : (unitsPerOne : ℚ) = 2 ^ 1074 := by
  unfold unitsPerOne
  generalize 1074 = n
  push_cast
  rfl

theorem toRat_eq (m : Magnitude) : m.toRat = m.units / unitsPerOne := by
  rw [cast_unitsPerOne, toRat, zpow_sub₀ two_ne_zero, zpow_natCast, mul_div_assoc', units,
    Nat.cast_mul, Nat.cast_pow, Nat.cast_ofNat]
  rfl

theorem toRat_nonneg (m : Magnitude) : 0 ≤ m.toRat := by
  rw [toRat_eq]
  positivity

theorem toRat_zero : zero.toRat = 0 := by
  rw [toRat_eq, zero, units, Nat.zero_mul, Nat.cast_zero, zero_div]

theorem toRat_inj {m n : Magnitude} : m.toRat = n.toRat ↔ m = n := by
  refine ⟨fun h => units_injective ?_, congrArg toRat⟩
  rw [toRat_eq, toRat_eq, div_left_inj' unitsPerOne_pos_rat.ne'] at h
  exact_mod_cast h

/-- The bound where the finite values end. -/
theorem overflow_bound :
    (2 * (lead : ℚ) - 1 / 2) * 2 ^ topExponent = unitsPerOne * (2 ^ 1024 - 2 ^ 970) := by
  have htop : (2 : ℚ) ^ topExponent = 2 ^ 970 * 2 ^ 1074 * 2 := by
    rw [← pow_add, ← pow_succ]
    rfl
  have hlimit : (2 : ℚ) ^ 1024 = 2 ^ 970 * 2 ^ 54 := pow_add 2 970 54
  rw [cast_unitsPerOne, htop, hlimit]
  generalize (2 : ℚ) ^ 970 = a
  generalize (2 : ℚ) ^ 1074 = b
  norm_num [lead_eq]
  ring

section Quotient
variable {num den : Nat} {m : Magnitude} {q : ℚ}
variable (hden : 0 < den) (hq : (num : ℚ) / den = unitsPerOne * q)
include hden hq

theorem round?_eq_none_iff_le : round? num den = none ↔ 2 ^ 1024 - 2 ^ 970 ≤ q := by
  rw [round?_eq_none_iff hden, overflow_bound, hq, mul_le_mul_iff_right₀ unitsPerOne_pos_rat]

theorem toRat_nearest (h : round? num den = some m) {n : Magnitude} (hn : n ≠ m) :
    Prefers q m.toRat n.toRat m.significand n.significand := by
  have hscale : (0 : ℚ) < (unitsPerOne : ℚ)⁻¹ := inv_pos.mpr unitsPerOne_pos_rat
  have hquotient : q = num / den * (unitsPerOne : ℚ)⁻¹ := by
    rw [hq, mul_comm, inv_mul_cancel_left₀ unitsPerOne_pos_rat.ne']
  rw [hquotient, toRat_eq, toRat_eq, div_eq_mul_inv (m.units : ℚ), div_eq_mul_inv (n.units : ℚ),
    prefers_mul_iff hscale]
  exact round?_nearest hden h hn

theorem isNearest_of_round? (h : round? num den = some m) : IsNearest q m := by
  have hnonneg : 0 ≤ q := by
    have hquotient : (0 : ℚ) ≤ num / den := by positivity
    rw [hq] at hquotient
    exact nonneg_of_mul_nonneg_right hquotient unitsPerOne_pos_rat
  have hle (n : Magnitude) : |m.toRat - q| ≤ |n.toRat - q| := by
    by_cases hn : n = m
    · rw [hn]
    · exact (toRat_nearest hden hq h hn).le
  have heven {n : Magnitude} (hn : n ≠ m) (hdist : |m.toRat - q| = |n.toRat - q|) :
      m.significand % 2 = 0 :=
    (toRat_nearest hden hq h hn).elim (fun hlt => absurd hdist hlt.ne) fun htie => htie.2.1
  -- Below zero nothing is nearer than zero itself.
  have hzero : |zero.toRat - q| = q := by rw [toRat_zero, zero_sub, abs_neg, abs_of_nonneg hnonneg]
  have hminus (n : Magnitude) : |-n.toRat - q| = n.toRat + q := by
    rw [← neg_add', abs_neg, abs_of_nonneg (add_nonneg n.toRat_nonneg hnonneg)]
  constructor
  · rintro (_ | _) n
    · exact hle n
    · have := n.toRat_nonneg
      simp only [signedRat, if_true, hminus]
      linarith [hle zero]
  · rintro (_ | _) n hne hdist
    · exact heven (fun hn => hne (congrArg toRat hn)) hdist
    · have hn := n.toRat_nonneg
      simp only [signedRat, if_true, hminus] at hne hdist
      have hn0 : n.toRat = 0 := by linarith [hle zero]
      refine heven (n := zero) (fun hm => hne ?_) (by linarith)
      rw [hn0, ← hm, toRat_zero, neg_zero]

/-- Below the bound there is exactly one nearest value, and rounding finds it. -/
theorem round?_eq_some_iff :
    round? num den = some m ↔ q < 2 ^ 1024 - 2 ^ 970 ∧ IsNearest q m := by
  constructor
  · intro h
    refine ⟨?_, isNearest_of_round? hden hq h⟩
    rw [← not_le, ← round?_eq_none_iff_le hden hq, h]
    simp
  · rintro ⟨hlt, hm⟩
    obtain ⟨n, hn⟩ : ∃ n, round? num den = some n := by
      rw [← Option.ne_none_iff_exists', ne_eq, round?_eq_none_iff_le hden hq, not_le]
      exact hlt
    rw [hn, Option.some.injEq]
    by_contra hne
    rcases toRat_nearest hden hq hn (Ne.symm hne) with hfar | ⟨htie, -, hodd⟩
    · exact absurd (hm.nearest false n) (not_le.mpr hfar)
    · have heven := hm.even false n (fun heq => hne (toRat_inj.mp heq)) htie.symm
      omega

end Quotient
end Magnitude
end PolishCalc
