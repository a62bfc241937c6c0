import PolishCalc.Number.Arithmetic
import PolishCalc.Number.Render
import PolishCalc.Proofs.Nearest

/-! Whole numbers of magnitude at most `2 ^ 53` are exact: each of them is a finite value, sums,
differences and products that stay among them are not rounded, and such a value is printed as the
decimal notation of its integer. -/
namespace PolishCalc

namespace Magnitude

/-- A significand of at most 53 bits may stand in any place, be it full or not. -/
theorem exists_units {s e : Nat} (hs : s < 2 * lead) (he : e ≤ topExponent) :
    ∃ m : Magnitude, m.units = s * 2 ^ e := by
  induction e generalizing s with
  | zero => exact ⟨⟨s, 0, hs, he, .inl rfl⟩, rfl⟩
  | succ e ih =>
    rcases Nat.lt_or_ge s lead with hlow | hfull
    · obtain ⟨m, hm⟩ := ih (s := s * 2) (by omega) (by omega)
      exact ⟨m, by rw [hm, Nat.pow_succ', Nat.mul_assoc]⟩
    · exact ⟨⟨s, e + 1, hs, he, .inr hfull⟩, rfl⟩

theorem unitsPerOne_eq : unitsPerOne = 2 ^ 1074 := by
  unfold unitsPerOne
  generalize 1074 = n
  rfl

theorem exists_units_whole {k : Nat} (hk : k < 2 ^ 53 ∨ k % 2 = 0 ∧ k < 2 ^ 54) :
    ∃ m : Magnitude, m.units = unitsPerOne * k := by
  have hlead : 2 * lead = 2 ^ 53 := rfl
  rw [unitsPerOne_eq]
  rcases hk with hk | ⟨heven, hk⟩
  · obtain ⟨m, hm⟩ := exists_units (s := k) (e := 1074) (by omega) (by decide)
    exact ⟨m, by rw [hm, Nat.mul_comm]⟩
  · obtain ⟨m, hm⟩ := exists_units (s := k / 2) (e := 1074 + 1) (by omega) (by decide)
    have hhalf : k / 2 * 2 = k := by omega
    refine ⟨m, ?_⟩
    rw [hm]
    generalize 1074 = n
    rw [Nat.pow_succ', ← Nat.mul_assoc, hhalf, Nat.mul_comm]

theorem exists_units_of_le {k : Nat} (hk : k ≤ 2 ^ 53) :
    ∃ m : Magnitude, m.units = unitsPerOne * k := exists_units_whole (by omega)

/-- Nothing is rounded to a value when another one lies between. -/
theorem round?_ne_of_between {n : Nat} {m w : Magnitude}
    (h : n ≤ w.units ∧ w.units < m.units ∨ m.units < w.units ∧ w.units ≤ n) :
    round? n 1 ≠ some m := by
  intro hround
  have hne : w ≠ m := by
    rintro rfl
    omega
  have hle := (round?_nearest Nat.one_pos hround hne).le
  rw [Nat.cast_one, div_one] at hle
  rcases h with ⟨hlow, hlt⟩ | ⟨hlt, hhigh⟩
  · have hlow' : (n : ℚ) ≤ w.units := Nat.cast_le.mpr hlow
    have hlt' : (w.units : ℚ) < m.units := Nat.cast_lt.mpr hlt
    rw [abs_of_nonneg (by linarith), abs_of_nonneg (by linarith)] at hle
    linarith
  · have hhigh' : (w.units : ℚ) ≤ n := Nat.cast_le.mpr hhigh
    have hlt' : (m.units : ℚ) < w.units := Nat.cast_lt.mpr hlt
    rw [abs_of_nonpos (by linarith), abs_of_nonpos (by linarith)] at hle
    linarith

/-- No even whole number is rounded to another whole number of at most `2 ^ 53`. -/
theorem round?_whole_ne {m : Magnitude} {k n : Nat} (hm : m.units = unitsPerOne * k)
    (hk : k ≤ 2 ^ 53) (heven : n % 2 = 0) (hne : n ≠ k) : round? (unitsPerOne * n) 1 ≠ some m := by
  have hpos := Decimal.unitsPerOne_pos
  have hbetween {w : Nat} (hw : w < 2 ^ 53 ∨ w % 2 = 0 ∧ w < 2 ^ 54)
      (h : n ≤ w ∧ w < k ∨ k < w ∧ w ≤ n) : round? (unitsPerOne * n) 1 ≠ some m := by
    obtain ⟨v, hv⟩ := exists_units_whole hw
    apply round?_ne_of_between (w := v)
    rw [hm, hv]
    refine h.imp ?_ ?_
    · exact fun h => ⟨Nat.mul_le_mul_left _ h.1, Nat.mul_lt_mul_of_pos_left h.2 hpos⟩
    · exact fun h => ⟨Nat.mul_lt_mul_of_pos_left h.1 hpos, Nat.mul_le_mul_left _ h.2⟩
  -- Of the whole numbers from `n` to `k`, one is nearer to `n` than `k` is.
  rcases Nat.lt_or_gt_of_ne hne with hlt | hgt
  · exact hbetween (w := n) (by omega) (by omega)
  · rcases Nat.lt_or_eq_of_le hk with hlt | rfl
    · exact hbetween (w := k + 1) (by omega) (by omega)
    · -- Beyond `2 ^ 53` only the even whole numbers are values.
      exact hbetween (w := 2 ^ 53 + 2) (by omega) (by omega)

end Magnitude

namespace Number

open Magnitude

def Denotes (x : Number) (n : Int) : Prop :=
  ∃ negative m, x = .finite negative m ∧ signedRat negative m = n

theorem Denotes.exists_eq {x : Number} {n : Int} (h : x.Denotes n) :
    ∃ negative m, x = .finite negative m := by
  obtain ⟨negative, m, hx, -⟩ := h
  exact ⟨negative, m, hx⟩

theorem cast_signedUnits (negative : Bool) (m : Magnitude) :
    (signedUnits negative m : ℚ) = unitsPerOne * signedRat negative m := by
  have hne := unitsPerOne_pos_rat.ne'
  cases negative <;> simp [signedUnits, signedRat, toRat_eq, mul_div_cancel₀ _ hne]

theorem denotes_finite_iff {negative : Bool} {m : Magnitude} {n : Int} :
    Denotes (.finite negative m) n ↔ signedUnits negative m = unitsPerOne * n := by
  have hcast := cast_signedUnits negative m
  have hiff : signedRat negative m = n ↔ signedUnits negative m = unitsPerOne * n := by
    rw [← @Int.cast_inj ℚ, hcast, Int.cast_mul, Int.cast_natCast,
      mul_right_inj' unitsPerOne_pos_rat.ne']
  rw [← hiff]
  constructor
  · rintro ⟨_, _, heq, hvalue⟩
    cases heq
    exact hvalue
  · exact fun hvalue => ⟨negative, m, rfl, hvalue⟩

theorem signedUnits_not (negative : Bool) (m : Magnitude) :
    signedUnits (!negative) m = -signedUnits negative m := by
  cases negative <;> simp [signedUnits]

theorem Denotes.neg {x : Number} {n : Int} (h : x.Denotes n) : (-x).Denotes (-n) := by
  obtain ⟨negative, m, rfl⟩ := h.exists_eq
  change Denotes (.finite (!negative) m) (-n)
  rw [denotes_finite_iff, signedUnits_not, denotes_finite_iff.mp h, Int.mul_neg]

theorem units_of_denotes {negative : Bool} {m : Magnitude} {n : Int}
    (h : Denotes (.finite negative m) n) : m.units = unitsPerOne * n.natAbs := by
  have habs : (signedUnits negative m).natAbs = m.units := by cases negative <;> simp [signedUnits]
  rw [← habs, denotes_finite_iff.mp h, Int.natAbs_mul, Int.natAbs_natCast]

theorem unitsPerOne_mul_neg_iff {n : Int} : (unitsPerOne : Int) * n < 0 ↔ n < 0 := by
  have hpos : (0 : Int) < unitsPerOne := Int.natCast_pos.mpr Decimal.unitsPerOne_pos
  have hiff := mul_lt_mul_iff_right₀ (b := n) (c := 0) hpos
  rwa [Int.mul_zero] at hiff

/-- Only a zero does not determine its sign. -/
theorem sign_of_denotes {negative : Bool} {m : Magnitude} {n : Int}
    (h : Denotes (.finite negative m) n) (hn : n ≠ 0) : negative = decide (n < 0) := by
  have hunits := denotes_finite_iff.mp h
  have hpos : 0 < m.units := by
    rw [units_of_denotes h]
    exact Nat.mul_pos Decimal.unitsPerOne_pos (Int.natAbs_pos.mpr hn)
  have hneg : decide (n < 0) = decide (signedUnits negative m < 0) := by
    rw [decide_eq_decide, hunits, unitsPerOne_mul_neg_iff]
  rw [hneg]
  cases negative <;> simp [signedUnits, hpos]

/-- Rounding returns a whole number of at most `2 ^ 53` as it is. -/
theorem denotes_ofUnits {negative : Bool} {n : Int} (hn : n.natAbs ≤ 2 ^ 53)
    (hsign : n ≠ 0 → negative = decide (n < 0)) :
    Denotes (ofUnits negative (unitsPerOne * n.natAbs) 1) n := by
  obtain ⟨m, hm⟩ := exists_units_of_le hn
  rw [← hm, ofUnits, round?_units, denotes_finite_iff, signedUnits, hm, Nat.cast_mul]
  cases negative
  · rw [if_neg Bool.false_ne_true, Int.natAbs_of_nonneg (by grind)]
  · rw [if_pos rfl, Int.ofNat_natAbs_of_nonpos (by grind), Int.mul_neg, Int.neg_neg]

variable {x y : Number} {i j : Int}

theorem Denotes.add (hx : x.Denotes i) (hy : y.Denotes j) (h : (i + j).natAbs ≤ 2 ^ 53) :
    (x + y).Denotes (i + j) := by
  obtain ⟨s, a, rfl⟩ := hx.exists_eq
  obtain ⟨t, b, rfl⟩ := hy.exists_eq
  change Denotes (Number.add (.finite s a) (.finite t b)) (i + j)
  have hsum : signedUnits s a + signedUnits t b = unitsPerOne * (i + j) := by
    rw [denotes_finite_iff.mp hx, denotes_finite_iff.mp hy, Int.mul_add]
  rw [Number.add, hsum, Int.natAbs_mul, Int.natAbs_natCast]
  refine denotes_ofUnits h fun hne => ?_
  have hpos : (unitsPerOne : Int) ≠ 0 := Int.natCast_ne_zero.mpr Decimal.unitsPerOne_pos.ne'
  rw [if_neg (mul_ne_zero hpos hne), decide_eq_decide, unitsPerOne_mul_neg_iff]

theorem Denotes.sub (hx : x.Denotes i) (hy : y.Denotes j) (h : (i - j).natAbs ≤ 2 ^ 53) :
    (x - y).Denotes (i - j) := by
  rw [Int.sub_eq_add_neg] at h ⊢
  exact hx.add hy.neg h

/-- The sign of a product. -/
theorem xor_decide_neg (hi : i ≠ 0) (hj : j ≠ 0) :
    (decide (i < 0) ^^ decide (j < 0)) = decide (i * j < 0) := by
  rcases lt_or_gt_of_ne hi with hi | hi <;> rcases lt_or_gt_of_ne hj with hj | hj
  · simp [hi, hj, (mul_pos_of_neg_of_neg hi hj).not_gt]
  · simp [hi, hj.not_gt, mul_neg_of_neg_of_pos hi hj]
  · simp [hi.not_gt, hj, mul_neg_of_pos_of_neg hi hj]
  · simp [hi.not_gt, hj.not_gt, (mul_pos hi hj).not_gt]

theorem Denotes.mul (hx : x.Denotes i) (hy : y.Denotes j) (h : (i * j).natAbs ≤ 2 ^ 53) :
    (x * y).Denotes (i * j) := by
  obtain ⟨s, a, rfl⟩ := hx.exists_eq
  obtain ⟨t, b, rfl⟩ := hy.exists_eq
  have hproduct : a.units * b.units = unitsPerOne * (unitsPerOne * (i * j).natAbs) := by
    rw [units_of_denotes hx, units_of_denotes hy, Int.natAbs_mul]
    ring
  have hround : round? (a.units * b.units) unitsPerOne =
      round? (unitsPerOne * (i * j).natAbs) 1 := by
    have hscale := round?_mul_left Decimal.unitsPerOne_pos (unitsPerOne * (i * j).natAbs) 1
    rwa [← hproduct, Nat.mul_one] at hscale
  change Denotes (ofUnits (s ^^ t) (a.units * b.units) unitsPerOne) (i * j)
  rw [ofUnits, hround]
  refine denotes_ofUnits h fun hne => ?_
  obtain ⟨hi, hj⟩ := mul_ne_zero_iff.mp hne
  rw [sign_of_denotes hx hi, sign_of_denotes hy hj, xor_decide_neg hi hj]

end Number

namespace Decimal

theorem grains_of_units {m : Magnitude} {k : Nat} (h : m.units = Magnitude.unitsPerOne * k) :
    grains m = grainsPerOne * k := by
  rw [grains, h, grainsPerOne_eq]
  ring

theorem nearest?_mul_grainsPerOne (n : Nat) :
    nearest? (grainsPerOne * n) = Magnitude.round? (Magnitude.unitsPerOne * n) 1 := by
  have h := Magnitude.round?_mul_left grainsPerUnit_pos (Magnitude.unitsPerOne * n) 1
  rw [← h, nearest?, grainsPerOne_eq, Nat.mul_one, ← Nat.mul_assoc,
    Nat.mul_comm grainsPerUnit]

/-- Every grid holds all whole numbers, or only those with enough zeros at their end. -/
theorem grid_dvd_or_eq (j : Nat) :
    10 ^ j ∣ grainsPerOne ∨ ∃ i, 10 ^ j = grainsPerOne * 10 ^ (i + 1) := by
  unfold grainsPerOne
  generalize 1074 = n
  rcases Nat.lt_or_ge n j with hlt | hle
  · refine .inr ⟨j - n - 1, ?_⟩
    have hj : j = n + (j - n - 1 + 1) := by omega
    exact (congrArg (10 ^ ·) hj).trans (Nat.pow_add 10 n _)
  · exact .inl (Nat.pow_dvd_pow 10 hle)

/-- On a grid that the value lies on, the value itself is found. -/
theorem neighbour?_of_dvd {m : Magnitude} {grid : Nat} (hgrid : 0 < grid) (h : grid ∣ grains m) :
    neighbour? m grid = some (grains m) := by
  have hbelow : grains m / grid * grid = grains m := Nat.div_mul_cancel h
  simp only [neighbour?, hbelow, nearest?_grains]
  rw [if_pos trivial, if_neg (by omega)]

section Whole
variable {m : Magnitude} {k : Nat}
variable (hm : m.units = Magnitude.unitsPerOne * k) (hk : k ≤ 2 ^ 53)
include hm hk

theorem nearest?_even_ne {n : Nat} (heven : n % 2 = 0) (hne : n ≠ k) :
    nearest? (grainsPerOne * n) ≠ some m := by
  rw [nearest?_mul_grainsPerOne]
  exact Magnitude.round?_whole_ne hm hk heven hne

/-- A grid beside the value is of no use: its points are even, and each is read as something else. -/
theorem neighbour?_of_not_dvd {j : Nat} (h : ¬ 10 ^ j ∣ grains m) : neighbour? m (10 ^ j) = none := by
  rw [grains_of_units hm] at h
  obtain hdvd | ⟨i, hgrid⟩ := grid_dvd_or_eq j
  · exact absurd (Dvd.dvd.mul_right hdvd k) h
  rw [hgrid] at h ⊢
  have hother (q : Nat) : nearest? (q * (grainsPerOne * 10 ^ (i + 1))) ≠ some m := by
    rw [Nat.mul_left_comm]
    refine nearest?_even_ne hm hk ?_ ?_
    · rw [Nat.pow_succ, ← Nat.mul_assoc]
      omega
    · rintro rfl
      exact h (Nat.mul_dvd_mul_left _ (Nat.dvd_mul_left _ _))
  have habove := hother (grains m / (grainsPerOne * 10 ^ (i + 1)) + 1)
  rw [Nat.succ_mul] at habove
  simp only [neighbour?, if_neg (hother _), if_neg habove]

theorem shortestFrom_whole (j : Nat) : shortestFrom m j = grains m := by
  induction j with
  | zero => rw [shortestFrom]
  | succ j ih =>
    rw [shortestFrom]
    by_cases h : 10 ^ (j + 1) ∣ grains m
    · rw [neighbour?_of_dvd (Nat.pow_pos (by decide)) h]
    · rw [neighbour?_of_not_dvd hm hk h]
      exact ih

theorem render_shortest_whole : render (shortest m) = Nat.toDigits 10 k := by
  have hpos : 0 < grainsPerOne := by
    rw [grainsPerOne_eq]
    exact Nat.mul_pos unitsPerOne_pos grainsPerUnit_pos
  have hfraction : fractionText (grainsPerOne * k) = [] := by
    rw [fractionText, Nat.mul_mod_right, fractionDigits, if_pos rfl]
  rw [shortest, shortestFrom_whole hm hk, grains_of_units hm, render_eq, hfraction, wholeText,
    Nat.mul_div_cancel_left k hpos]
  exact List.append_nil _

end Whole
end Decimal

/-- A whole number is printed as its integer, save that a zero may keep its sign. -/
theorem Number.toString_of_denotes {x : Number} {n : Int} (h : x.Denotes n)
    (hn : n.natAbs ≤ 2 ^ 53) : toString x = toString n ∨ n = 0 ∧ toString x = "-0" := by
  obtain ⟨negative, m, rfl⟩ := h.exists_eq
  have hdigits := Decimal.render_shortest_whole (units_of_denotes h) hn
  have htext : toString (finite negative m) =
      String.ofList (signText negative ++ Nat.toDigits 10 n.natAbs) := by
    rw [← hdigits]
    rfl
  rw [htext]
  by_cases hzero : n = 0
  · subst hzero
    cases negative
    · exact .inl rfl
    · exact .inr ⟨rfl, rfl⟩
  · left
    rw [sign_of_denotes h hzero]
    cases n with
    | ofNat n => rfl
    | negSucc n =>
      rw [decide_eq_true (Int.negSucc_lt_zero n)]
      exact String.ofList_append

end PolishCalc
