import Mathlib.Data.List.DropRight
import PolishCalc.Number.Render
import PolishCalc.Proofs.GridSearch
import PolishCalc.Proofs.Literals

/-! The digits of a printed number are as few as can be, and no other digits of the same count are
closer. The printed decimal has its last digit in the greatest place possible. A decimal with fewer
digits would have to lie below its leading digit, and then a power of ten between the two would have its
last digit in a greater place still. -/
namespace PolishCalc

def trimZeros (digits : List Char) : List Char :=
  (digits.dropWhile (· == '0')).rdropWhile (· == '0')

def significantDigits (text : List Char) : List Char := trimZeros (text.filter Char.isDigit)

def HasDigits (n : Nat) (q : ℚ) : Prop := ∃ c e : ℤ, |c| < 10 ^ n ∧ q = c * 10 ^ e

def signedNumeralValue (text : List Char) : ℚ :=
  if text.head? = some '-' then -numeralValue text.tail else numeralValue text

theorem ofDigitChars_dropWhile (digits : List Char) :
    Nat.ofDigitChars 10 (digits.dropWhile (· == '0')) 0 = Nat.ofDigitChars 10 digits 0 := by
  induction digits with
  | nil => rfl
  | cons c digits ih =>
    by_cases hc : c = '0'
    · subst hc
      rw [List.dropWhile_cons_of_pos (by rfl), ih, Nat.ofDigitChars_cons]
      rfl
    · rw [List.dropWhile_cons_of_neg (by simpa using hc)]

theorem exists_ofDigitChars_rdropWhile (digits : List Char) :
    ∃ t, Nat.ofDigitChars 10 digits 0 =
      Nat.ofDigitChars 10 (digits.rdropWhile (· == '0')) 0 * 10 ^ t := by
  induction digits using List.reverseRecOn with
  | nil => exact ⟨0, rfl⟩
  | append_singleton digits c ih =>
    by_cases hc : c = '0'
    · obtain ⟨t, ht⟩ := ih
      refine ⟨t + 1, ?_⟩
      subst hc
      rw [List.rdropWhile_concat_pos _ _ _ (by rfl), Nat.ofDigitChars_append, Nat.ofDigitChars_cons,
        Nat.ofDigitChars_nil, ht, Nat.pow_succ, Nat.mul_comm 10, Nat.mul_assoc]
      rfl
    · refine ⟨0, ?_⟩
      rw [List.rdropWhile_concat_neg _ _ _ (by simpa using hc), Nat.pow_zero, Nat.mul_one]

theorem digit_bounds {c : Char} (hc : c.isDigit = true) :
    c.toNat - '0'.toNat < 10 ∧ (c ≠ '0' → 0 < c.toNat - '0'.toNat) := by
  have hzero : '0'.toNat = 48 := rfl
  have hnine : '9'.toNat = 57 := rfl
  have hrange := Char.isDigit_iff_toNat.mp hc
  have hne : c ≠ '0' → c.toNat ≠ '0'.toNat := mt Char.toNat_inj.mp
  rw [hzero] at hne hrange ⊢
  rw [hnine] at hrange
  exact ⟨by omega, fun hc => by have := hne hc; omega⟩

theorem ofDigitChars_lt {digits : List Char} (h : ∀ c ∈ digits, c.isDigit = true) :
    Nat.ofDigitChars 10 digits 0 < 10 ^ digits.length := by
  induction digits using List.reverseRecOn with
  | nil => decide
  | append_singleton digits c ih =>
    have hc := (digit_bounds (h c (by simp))).1
    have hdigits := ih fun d hd => h d (List.mem_append_left _ hd)
    rw [Nat.ofDigitChars_append, Nat.ofDigitChars_cons, Nat.ofDigitChars_nil, List.length_append,
      List.length_singleton, Nat.pow_succ]
    omega

structure Trimmed (digits : List Char) : Prop where
  isDigit : ∀ c ∈ digits, c.isDigit = true
  head_ne : digits.head? ≠ some '0'
  last_ne : digits.getLast? ≠ some '0'

theorem trimmed_trimZeros {digits : List Char} (h : ∀ c ∈ digits, c.isDigit = true) :
    Trimmed (trimZeros digits) := by
  have hrest : trimZeros digits ++ (digits.dropWhile (· == '0')).rtakeWhile (· == '0') =
      digits.dropWhile (· == '0') := List.rdropWhile_append_rtakeWhile
  constructor
  · intro c hc
    refine h c ((digits.dropWhile_sublist (· == '0')).subset ?_)
    rw [← hrest]
    exact List.mem_append_left _ hc
  · intro hhead
    have hfirst := digits.head?_dropWhile_not (· == '0')
    rw [← hrest, List.head?_append, hhead] at hfirst
    simp at hfirst
  · intro hlast
    have hne : trimZeros digits ≠ [] := by
      intro hnil
      simp [hnil] at hlast
    have hend := List.rdropWhile_last_not (· == '0') _ hne
    rw [List.getLast?_eq_some_getLast hne, Option.some.injEq] at hlast
    exact hend (beq_iff_eq.mpr hlast)

section Trimmed
variable {digits : List Char} (h : Trimmed digits) (hne : digits ≠ [])
include h hne

theorem Trimmed.pow_le : 10 ^ (digits.length - 1) ≤ Nat.ofDigitChars 10 digits 0 := by
  obtain ⟨c, rest, rfl⟩ := List.exists_cons_of_ne_nil hne
  have hc : c ≠ '0' := fun hc => h.head_ne (congrArg some hc)
  have hpos := (digit_bounds (h.isDigit c List.mem_cons_self)).2 hc
  rw [List.length_cons, Nat.add_sub_cancel, Nat.ofDigitChars_cons,
    Nat.ofDigitChars_eq_ofDigitChars_zero, Nat.mul_zero, Nat.zero_add]
  exact Nat.le_add_right_of_le (Nat.le_mul_of_pos_right _ hpos)

theorem Trimmed.mod_ten_ne : Nat.ofDigitChars 10 digits 0 % 10 ≠ 0 := by
  obtain ⟨rest, c, rfl⟩ := digits.eq_nil_or_concat'.resolve_left hne
  have hc : c ≠ '0' := by
    rintro rfl
    exact h.last_ne List.getLast?_concat
  have hbounds := digit_bounds (h.isDigit c (by simp))
  have hpos := hbounds.2 hc
  rw [Nat.ofDigitChars_append, Nat.ofDigitChars_cons, Nat.ofDigitChars_nil]
  omega

end Trimmed

/-- Digits that are not all zeros are the significant ones, moved to their place. -/
theorem exists_significand {digits : List Char} (h : ∀ c ∈ digits, c.isDigit = true)
    (hne : Nat.ofDigitChars 10 digits 0 ≠ 0) :
    ∃ c t k, (trimZeros digits).length = k + 1 ∧ Nat.ofDigitChars 10 digits 0 = c * 10 ^ t ∧
      c % 10 ≠ 0 ∧ 10 ^ k ≤ c ∧ c < 10 ^ (k + 1) := by
  have htrim := trimmed_trimZeros h
  obtain ⟨t, ht⟩ := exists_ofDigitChars_rdropWhile (digits.dropWhile (· == '0'))
  rw [ofDigitChars_dropWhile, ← trimZeros] at ht
  have hnil : trimZeros digits ≠ [] := by
    intro hnil
    rw [hnil, Nat.ofDigitChars_nil, Nat.zero_mul] at ht
    exact hne ht
  have hlength : (trimZeros digits).length = (trimZeros digits).length - 1 + 1 := by
    have := List.length_pos_iff.mpr hnil
    omega
  have hlt := ofDigitChars_lt htrim.isDigit
  rw [hlength] at hlt
  exact ⟨_, t, _, hlength, ht, htrim.mod_ten_ne hnil, htrim.pow_le hnil, hlt⟩

theorem HasDigits.neg {n : Nat} {q : ℚ} (h : HasDigits n q) : HasDigits n (-q) := by
  obtain ⟨c, e, hc, rfl⟩ := h
  exact ⟨-c, e, by rwa [abs_neg], by rw [Int.cast_neg, neg_mul]⟩

theorem HasDigits.exists_nat {n : Nat} {q : ℚ} (h : HasDigits n q) (hq : 0 < q) :
    ∃ (c : Nat) (e : ℤ), c < 10 ^ n ∧ q = c * 10 ^ e := by
  obtain ⟨c, e, hc, rfl⟩ := h
  have hpow : (0 : ℚ) < 10 ^ e := by positivity
  have hpos : 0 < c := by exact_mod_cast pos_of_mul_pos_left hq hpow.le
  obtain ⟨k, rfl⟩ := Int.eq_ofNat_of_zero_le hpos.le
  rw [abs_of_pos hpos] at hc
  exact ⟨k, e, by exact_mod_cast hc, rfl⟩

theorem mul_zpow_le_of_lt {c : Nat} {p e : ℤ} (hc : c < 10) (hlt : e < p) :
    (c : ℚ) * 10 ^ e ≤ 9 / 10 * 10 ^ p := by
  have hnine : (c : ℚ) ≤ 9 := by exact_mod_cast Nat.le_of_lt_succ hc
  calc (c : ℚ) * 10 ^ e ≤ 9 * 10 ^ (p - 1) := by
        refine mul_le_mul hnine ?_ (by positivity) (by norm_num)
        exact zpow_le_zpow_right₀ (by norm_num) (by omega)
    _ = 9 / 10 * 10 ^ p := by
        rw [zpow_sub_one₀ (by norm_num)]
        ring

namespace Decimal

open Magnitude (RoundsTo)

section Coarsest
variable {m : Magnitude} {p e : ℤ} {q : ℚ} {c k n : Nat}

/-- A decimal without a zero at its end has its last digit in no other place. -/
theorem Coarsest.place_eq (h : Coarsest m p q) (hc : c % 10 ≠ 0) (hq : q = c * 10 ^ e) : e = p := by
  have hle : e ≤ p := h.place_le c e (hq ▸ h.roundsTo)
  by_contra hne
  obtain ⟨i, hi⟩ : ∃ i : Nat, p = e + (i + 1 : Nat) := ⟨(p - e - 1).toNat, by omega⟩
  obtain ⟨b, hb⟩ := h.exists_eq
  have hpow : (10 : ℚ) ^ e ≠ 0 := by positivity
  have hcast : (c : ℚ) = (b * 10 ^ (i + 1) : Nat) := by
    rw [hq, hi, zpow_add₀ (by norm_num), mul_left_comm, mul_comm, zpow_natCast] at hb
    rw [mul_left_cancel₀ hpow hb]
    push_cast
    rfl
  rw [Nat.cast_inj.mp hcast, Nat.pow_succ, ← Nat.mul_assoc, Nat.mul_mod_left] at hc
  exact hc rfl

variable (h : Coarsest m p q) (hm : m.isZero = false) (hk : 10 ^ k * 10 ^ p ≤ q)
variable (hround : RoundsTo (c * 10 ^ e) false m)
include h hk hround

/-- Between a decimal below the leading digit of `q` and `q` itself there is a power of ten, so the
leading digit of `q` is the last one. -/
theorem Coarsest.eq_zero_of_lt (hc : c < 10 ^ n) (hle : n + e ≤ k + p) : k = 0 := by
  have hten : (10 : ℚ) ≠ 0 := by norm_num
  have hbelow : (c : ℚ) * 10 ^ e ≤ 10 ^ (k + p) :=
    calc (c : ℚ) * 10 ^ e ≤ 10 ^ n * 10 ^ e := by
          refine mul_le_mul_of_nonneg_right ?_ (by positivity)
          exact_mod_cast hc.le
      _ = 10 ^ (n + e) := by rw [zpow_add₀ hten, zpow_natCast]
      _ ≤ 10 ^ (k + p) := zpow_le_zpow_right₀ (by norm_num) hle
  have habove : (10 : ℚ) ^ (k + p) ≤ q := by rwa [zpow_add₀ hten, zpow_natCast]
  have hplace := h.place_le 1 (k + p)
  rw [Nat.cast_one, one_mul] at hplace
  have := hplace (hround.between h.roundsTo hbelow habove)
  omega

include hm

theorem Coarsest.lt_of_hasDigits (hc : c < 10 ^ n) : k < n := by
  by_contra hle
  have hplace := h.place_le c e hround
  have hzero := h.eq_zero_of_lt hk hround hc (by omega)
  obtain rfl : n = 0 := by omega
  obtain rfl : c = 0 := by simpa using hc
  have hpos := hround.pos hm
  simp at hpos

theorem Coarsest.closest_of_hasDigits (hc : c < 10 ^ (k + 1)) :
    |q - m.toRat| ≤ |c * 10 ^ e - m.toRat| := by
  rcases (h.place_le c e hround).eq_or_lt with rfl | hlt
  · exact h.closest c hround
  · -- Both have one digit, and the power of ten in the place of `q` lies between them.
    obtain rfl := h.eq_zero_of_lt hk hround hc (by omega)
    rw [pow_zero, one_mul] at hk
    have hpow : (0 : ℚ) < 10 ^ p := by positivity
    have hfar := mul_zpow_le_of_lt (by omega) hlt
    have hten : RoundsTo (10 ^ p) false m := hround.between h.roundsTo (by linarith) hk
    have hclosest : |q - m.toRat| ≤ |10 ^ p - m.toRat| := by
      have hone := h.closest 1
      rw [Nat.cast_one, one_mul] at hone
      exact hone hten
    refine hclosest.trans ?_
    rcases lt_or_ge m.toRat (10 ^ p) with hvalue | hvalue
    · rw [abs_of_pos (by linarith)]
      exact hround.ten_pow_closer hm hten hfar hvalue
    · rw [abs_of_nonpos (by linarith), abs_of_nonpos (by linarith)]
      linarith

end Coarsest
end Decimal

open Magnitude (RoundsTo signedRat)

structure IsShortest (negative : Bool) (m : Magnitude) (k : Nat) (q : ℚ) : Prop where
  hasDigits : HasDigits k q
  roundsTo : RoundsTo q negative m
  fewest : ∀ n < k, ∀ r, HasDigits n r → ¬ RoundsTo r negative m
  closest : ∀ r, HasDigits k r → RoundsTo r negative m →
    |q - signedRat negative m| ≤ |r - signedRat negative m|

theorem IsShortest.neg {m : Magnitude} {k : Nat} {q : ℚ} (h : IsShortest false m k q) :
    IsShortest true m k (-q) where
  hasDigits := h.hasDigits.neg
  roundsTo := by
    rw [Magnitude.roundsTo_true_iff, neg_neg]
    exact h.roundsTo
  fewest n hn r hdigits hround :=
    h.fewest n hn (-r) hdigits.neg (Magnitude.roundsTo_true_iff.mp hround)
  closest r hdigits hround := by
    have hclosest := h.closest (-r) hdigits.neg (Magnitude.roundsTo_true_iff.mp hround)
    have hreflect (x : ℚ) : |-x - signedRat false m| = |x - signedRat true m| := by
      rw [← abs_neg]
      congr 1
      change -(-x - m.toRat) = x - -m.toRat
      ring
    rwa [hreflect, ← neg_neg q, hreflect] at hclosest

namespace Decimal

theorem Coarsest.isShortest {m : Magnitude} {p e : ℤ} {q : ℚ} {c k : Nat} (h : Coarsest m p q)
    (hm : m.isZero = false) (hq : q = c * 10 ^ e) (hlast : c % 10 ≠ 0) (hlow : 10 ^ k ≤ c)
    (hhigh : c < 10 ^ (k + 1)) : IsShortest false m (k + 1) q := by
  obtain rfl := h.place_eq hlast hq
  have hk : 10 ^ k * 10 ^ e ≤ q := by
    rw [hq]
    refine mul_le_mul_of_nonneg_right ?_ (by positivity)
    exact_mod_cast hlow
  refine ⟨⟨c, e, ?_, by exact_mod_cast hq⟩, h.roundsTo, ?_, ?_⟩
  · rw [Nat.abs_cast]
    exact_mod_cast hhigh
  · intro n hn r hdigits hround
    obtain ⟨b, i, hb, rfl⟩ := hdigits.exists_nat (hround.pos hm)
    have := h.lt_of_hasDigits hm hk hround hb
    omega
  · intro r hdigits hround
    obtain ⟨b, i, hb, rfl⟩ := hdigits.exists_nat (hround.pos hm)
    exact h.closest_of_hasDigits hm hk hround hb

theorem filter_isDigit_render (d : Nat) :
    (render d).filter Char.isDigit = wholeText d ++ fractionText d := by
  have hwhole : (wholeText d).filter Char.isDigit = wholeText d :=
    List.filter_eq_self.mpr fun _ => isDigit_of_mem_wholeText
  have hfraction : (fractionText d).filter Char.isDigit = fractionText d :=
    List.filter_eq_self.mpr fun _ => isDigit_of_mem_fractionText
  rw [render_eq, List.filter_append, hwhole]
  split
  · rename_i hempty
    rw [List.isEmpty_iff.mp hempty, List.filter_nil]
  · rw [List.filter_cons_of_neg (by decide), hfraction]

theorem ofGrains_eq_div (d : Nat) :
    ofGrains d = Nat.ofDigitChars 10 (wholeText d ++ fractionText d) 0 /
      10 ^ (fractionText d).length := by
  obtain ⟨k, hk, hdigits, hscale⟩ := exists_ofDigitChars_text d
  have hne : (k : ℚ) ≠ 0 := Nat.cast_ne_zero.mpr hk.ne'
  rw [ofGrains, ← hscale]
  nth_rewrite 1 [← hdigits]
  rw [Nat.cast_mul, Nat.cast_mul, Nat.cast_pow, Nat.cast_ofNat, mul_div_mul_right _ _ hne]

theorem numeralValue_render (d : Nat) : numeralValue (render d) = ofGrains d := by
  have hfits : (Piece.number (wholeText d) (fractionText d)).Fits [] := by
    refine ⟨wholeText_ne_nil d, fun _ => isDigit_of_mem_wholeText,
      fun _ => isDigit_of_mem_fractionText, ?_, ?_⟩ <;> simp
  rw [ofGrains_eq_div, cast_ofDigitChars_append, ← numeralValue_text hfits]
  rfl

theorem signedNumeralValue_render (d : Nat) : signedNumeralValue (render d) = ofGrains d := by
  have hhead : (render d).head? ≠ some '-' := by
    obtain ⟨c, rest, hwhole⟩ := List.exists_cons_of_ne_nil (wholeText_ne_nil d)
    have hdigit : c.isDigit = true := isDigit_of_mem_wholeText (hwhole ▸ List.mem_cons_self)
    rw [render_eq, hwhole]
    intro hminus
    obtain rfl : c = '-' := Option.some.inj hminus
    exact absurd hdigit (by decide)
  rw [signedNumeralValue, if_neg hhead, numeralValue_render]

/-- The printed digits from the first to the last that is not a zero, as a number in its place. -/
theorem exists_significand_render {d : Nat} (hd : ofGrains d ≠ 0) :
    ∃ (c k : Nat) (e : ℤ), (significantDigits (render d)).length = k + 1 ∧
      ofGrains d = c * 10 ^ e ∧ c % 10 ≠ 0 ∧ 10 ^ k ≤ c ∧ c < 10 ^ (k + 1) := by
  have hvalue := ofGrains_eq_div d
  have hdigits : ∀ c ∈ wholeText d ++ fractionText d, c.isDigit = true := by
    intro c hc
    exact (List.mem_append.mp hc).elim isDigit_of_mem_wholeText isDigit_of_mem_fractionText
  have hne : Nat.ofDigitChars 10 (wholeText d ++ fractionText d) 0 ≠ 0 := by
    intro hzero
    rw [hzero, Nat.cast_zero, zero_div] at hvalue
    exact hd hvalue
  obtain ⟨c, t, k, hlength, hsplit, hlast, hlow, hhigh⟩ := exists_significand hdigits hne
  refine ⟨c, k, (t : ℤ) - (fractionText d).length, ?_, ?_, hlast, hlow, hhigh⟩
  · rw [significantDigits, filter_isDigit_render, hlength]
  · rw [hvalue, hsplit, zpow_sub₀ (by norm_num), zpow_natCast, zpow_natCast, Nat.cast_mul,
      Nat.cast_pow, Nat.cast_ofNat, mul_div_assoc]

theorem isShortest_shortest {m : Magnitude} (hm : m.isZero = false) :
    IsShortest false m (significantDigits (render (shortest m))).length
      (ofGrains (shortest m)) := by
  obtain ⟨p, hcoarsest⟩ := exists_coarsest_shortest hm
  obtain ⟨c, k, e, hlength, hvalue, hlast, hlow, hhigh⟩ :=
    exists_significand_render (hcoarsest.roundsTo.pos hm).ne'
  rw [hlength]
  exact hcoarsest.isShortest hm hvalue hlast hlow hhigh

end Decimal

/-- Every finite number but the zeros is printed with the fewest digits that a decimal needs to be
rounded to it, and no decimal with as many digits is closer to it. -/
theorem printed_digits_fewest_and_closest (negative : Bool) {m : Magnitude}
    (hm : m.isZero = false) :
    IsShortest negative m
      (significantDigits (toString (Number.finite negative m)).toList).length
      (signedNumeralValue (toString (Number.finite negative m)).toList) := by
  have htext : (toString (Number.finite negative m)).toList =
      Number.signText negative ++ Decimal.render (Decimal.shortest m) := String.toList_ofList
  have hshortest := Decimal.isShortest_shortest hm
  rw [htext]
  cases negative with
  | false =>
    rw [← Decimal.signedNumeralValue_render] at hshortest
    exact hshortest
  | true =>
    rw [← Decimal.numeralValue_render] at hshortest
    exact hshortest.neg

/-- Below a power of two the values are closer together than above it: of the decimals with sixteen
digits, one that is closer to `-2 ^ (-44)` than the printed one is not rounded to it. -/
theorem printed_digits_fewest_and_closest_at_power_of_two :
    ∃ m : Magnitude, m.toRat = 2 ^ (-44 : ℤ) ∧ m.isZero = false ∧
      toString (Number.finite true m) = "-0.00000000000005684341886080802" ∧
      IsShortest true m 16 (-5684341886080802 / 10 ^ 29) ∧
      |-5684341886080801 / 10 ^ 29 - signedRat true m| <
        |-5684341886080802 / 10 ^ 29 - signedRat true m| := by
  refine ⟨⟨Magnitude.lead, 978, by decide, by decide, by decide⟩, by decide +kernel, by decide, ?_⟩
  have hshortest := printed_digits_fewest_and_closest true
    (m := ⟨Magnitude.lead, 978, by decide, by decide, by decide⟩) (by decide)
  have htext : toString
      (Number.finite true ⟨Magnitude.lead, 978, by decide, by decide, by decide⟩) =
        "-0.00000000000005684341886080802" := by decide +kernel
  have hlength : (significantDigits "-0.00000000000005684341886080802".toList).length = 16 := by
    decide +kernel
  have hvalue : signedNumeralValue "-0.00000000000005684341886080802".toList =
      -5684341886080802 / 10 ^ 29 := by decide +kernel
  rw [htext, hlength, hvalue] at hshortest
  exact ⟨htext, hshortest, by decide +kernel⟩

end PolishCalc
