import PolishCalc.Decimal.Literal
import PolishCalc.Decimal.Shortest

/-! Printed decimals read back. Rounding depends on the exact quotient alone, so a decimal may be
counted in any unit; the digits that are printed for a magnitude are those of a decimal that rounds
to it. -/
namespace PolishCalc

open scoped CorePow

theorem roundHalfEven_mul_left {k : Nat} (hk : 0 < k) (num den : Nat) :
    roundHalfEven (k * num) (k * den) = roundHalfEven num den := by
  have hlt : 2 * (k * (num % den)) < k * den ↔ 2 * (num % den) < den := by
    rw [Nat.mul_left_comm, Nat.mul_lt_mul_left hk]
  have heq : 2 * (k * (num % den)) = k * den ↔ 2 * (num % den) = den := by
    rw [Nat.mul_left_comm, Nat.mul_right_inj (Nat.ne_of_gt hk)]
  simp only [roundHalfEven, Nat.mul_div_mul_left _ _ hk, Nat.mul_mod_mul_left, hlt, heq]

theorem roundHalfEven_mul_self {den : Nat} (hden : 0 < den) (q : Nat) :
    roundHalfEven (q * den) den = q := by
  simp [roundHalfEven, Nat.mul_div_cancel q hden, hden]

namespace Magnitude

theorem excess_mul_left {k : Nat} (hk : 0 < k) (num den : Nat) :
    excess (k * num) (k * den) = excess num den := by
  rw [excess, Nat.mul_div_mul_left _ _ hk, excess]

/-- Rounding depends on the quotient alone. -/
theorem round?_mul_left {k : Nat} (hk : 0 < k) (num den : Nat) :
    round? (k * num) (k * den) = round? num den := by
  have hround (e : Nat) : roundHalfEven (k * num) (k * den * 2 ^ e) =
      roundHalfEven num (den * 2 ^ e) := by
    rw [Nat.mul_assoc, roundHalfEven_mul_left hk]
  simp only [round?, excess_mul_left hk, hround]

theorem excess_units (m : Magnitude) : excess m.units 1 = m.exponent := by
  have hlt := m.significand_lt
  rw [lead_eq] at hlt
  rw [excess, Nat.div_one, units]
  cases m.normal with
  | inl he =>
    rw [he, Nat.pow_zero, Nat.mul_one]
    by_cases h0 : m.significand = 0
    · rw [h0, Nat.log2_zero]
    · have hlog : m.significand.log2 < 53 := (Nat.log2_lt h0).mpr hlt
      omega
  | inr hs =>
    rw [lead_eq] at hs
    have hne : m.significand * 2 ^ m.exponent ≠ 0 :=
      Nat.ne_of_gt (Nat.mul_pos (by omega) (Nat.two_pow_pos _))
    have hlog : (m.significand * 2 ^ m.exponent).log2 = 52 + m.exponent := by
      rw [Nat.log2_eq_iff hne, Nat.add_right_comm, Nat.pow_add, Nat.pow_add]
      exact ⟨Nat.mul_le_mul_right _ hs, Nat.mul_lt_mul_of_pos_right hlt (Nat.two_pow_pos _)⟩
    omega

/-- A magnitude is the one nearest to its own value. -/
theorem round?_units (m : Magnitude) : round? m.units 1 = some m := by
  have hround : roundHalfEven m.units (1 * 2 ^ m.exponent) = m.significand := by
    rw [Nat.one_mul]
    exact roundHalfEven_mul_self (Nat.two_pow_pos _) _
  simp only [round?, excess_units, hround, m.significand_lt, m.exponent_le, dif_pos]

end Magnitude

namespace Decimal

theorem ten_pow (n : Nat) : 10 ^ n = 2 ^ n * 5 ^ n := Nat.mul_pow 2 5 n

theorem unitsPerOne_pos : 0 < Magnitude.unitsPerOne := by
  unfold Magnitude.unitsPerOne
  generalize 1074 = n
  exact Nat.two_pow_pos n

theorem grainsPerUnit_pos : 0 < grainsPerUnit := by
  unfold grainsPerUnit
  generalize 1074 = n
  exact Nat.pow_pos (by decide)

theorem grainsPerOne_eq : grainsPerOne = Magnitude.unitsPerOne * grainsPerUnit := by
  unfold grainsPerOne Magnitude.unitsPerOne grainsPerUnit
  generalize 1074 = n
  exact ten_pow n

theorem nearest?_grains (m : Magnitude) : nearest? (grains m) = some m := by
  have h := Magnitude.round?_mul_left grainsPerUnit_pos m.units 1
  rw [Nat.mul_one, Magnitude.round?_units] at h
  exact h

theorem nearest?_of_neighbour? {m : Magnitude} {grid d : Nat} (h : neighbour? m grid = some d) :
    nearest? d = some m := by
  unfold neighbour? at h
  dsimp only at h
  split at h
  · rename_i hbelow
    split at h
    · rename_i habove
      obtain rfl := Option.some.inj h
      exact habove.1
    · obtain rfl := Option.some.inj h
      exact hbelow
  · split at h
    · rename_i habove
      obtain rfl := Option.some.inj h
      exact habove
    · cases h

theorem nearest?_shortestFrom (m : Magnitude) (j : Nat) : nearest? (shortestFrom m j) = some m := by
  induction j with
  | zero =>
    rw [shortestFrom]
    exact nearest?_grains m
  | succ j ih =>
    rw [shortestFrom]
    split
    · rename_i d h
      exact nearest?_of_neighbour? h
    · exact ih

theorem nearest?_shortest (m : Magnitude) : nearest? (shortest m) = some m :=
  nearest?_shortestFrom m _

theorem isDigit_of_mem_fractionDigits {places d : Nat} (hd : d < 10 ^ places) {c : Char}
    (hc : c ∈ fractionDigits places d) : c.isDigit = true := by
  induction places generalizing d with
  | zero => simp [fractionDigits] at hc
  | succ places ih =>
    have hdigit : d / 10 ^ places < 10 := by
      rw [Nat.div_lt_iff_lt_mul (Nat.pow_pos (by decide)), Nat.mul_comm]
      exact hd
    rw [fractionDigits] at hc
    split at hc
    · simp at hc
    · rcases List.mem_cons.mp hc with rfl | hc
      · simp [Nat.isDigit_digitChar, hdigit]
      · exact ih (Nat.mod_lt _ (Nat.pow_pos (by decide))) hc

theorem length_fractionDigits_le (places d : Nat) : (fractionDigits places d).length ≤ places := by
  induction places generalizing d with
  | zero => simp [fractionDigits]
  | succ places ih =>
    have h := ih (d % 10 ^ places)
    rw [fractionDigits]
    split
    · simp
    · simp only [List.length_cons]
      omega

/-- The digits that are left out at the end of a fraction are zeros. -/
theorem ofDigitChars_fractionDigits {places d : Nat} (hd : d < 10 ^ places) :
    Nat.ofDigitChars 10 (fractionDigits places d) 0 *
      10 ^ (places - (fractionDigits places d).length) = d := by
  induction places generalizing d with
  | zero =>
    obtain rfl : d = 0 := by simpa using hd
    rfl
  | succ places ih =>
    have hpos : 0 < 10 ^ places := Nat.pow_pos (by decide)
    have hdigit : d / 10 ^ places < 10 := by
      rw [Nat.div_lt_iff_lt_mul hpos, Nat.mul_comm]
      exact hd
    have hrest := ih (Nat.mod_lt d hpos)
    have hlength := length_fractionDigits_le places (d % 10 ^ places)
    rw [fractionDigits]
    split
    · rename_i h0
      rw [Nat.ofDigitChars_nil, Nat.zero_mul, h0]
    · generalize fractionDigits places (d % 10 ^ places) = fraction at hrest hlength ⊢
      rw [Nat.ofDigitChars_cons_digitChar_of_lt_ten hdigit, Nat.ofDigitChars_eq_ofDigitChars_zero,
        List.length_cons, Nat.add_sub_add_right, Nat.mul_zero, Nat.zero_add, Nat.add_mul, hrest]
      have hpow : 10 ^ fraction.length * 10 ^ (places - fraction.length) = 10 ^ places := by
        rw [← Nat.pow_add, Nat.add_sub_of_le hlength]
      calc 10 ^ fraction.length * (d / 10 ^ places) * 10 ^ (places - fraction.length) +
            d % 10 ^ places
          = 10 ^ places * (d / 10 ^ places) + d % 10 ^ places := by
            rw [Nat.mul_right_comm, hpow]
        _ = d := Nat.div_add_mod d (10 ^ places)

/-- The digits before and behind the point, together and moved behind the point, are all of `d`. -/
theorem ofDigitChars_append_fractionDigits (places d : Nat) :
    Nat.ofDigitChars 10 (Nat.toDigits 10 (d / 10 ^ places) ++
        fractionDigits places (d % 10 ^ places)) 0 *
      10 ^ (places - (fractionDigits places (d % 10 ^ places)).length) = d := by
  have hpos : 0 < 10 ^ places := Nat.pow_pos (by decide)
  have hfraction := ofDigitChars_fractionDigits (Nat.mod_lt d hpos)
  have hlength := length_fractionDigits_le places (d % 10 ^ places)
  generalize fractionDigits places (d % 10 ^ places) = fraction at hfraction hlength ⊢
  rw [Nat.ofDigitChars_append, Nat.ofDigitChars_ten_toDigits,
    Nat.ofDigitChars_eq_ofDigitChars_zero, Nat.add_mul, hfraction, Nat.mul_right_comm,
    ← Nat.pow_add, Nat.add_sub_of_le hlength]
  exact Nat.div_add_mod d (10 ^ places)

def wholeText (d : Nat) : List Char := Nat.toDigits 10 (d / grainsPerOne)

def fractionText (d : Nat) : List Char := fractionDigits 1074 (d % grainsPerOne)

theorem render_eq (d : Nat) :
    render d = wholeText d ++ if (fractionText d).isEmpty then [] else '.' :: fractionText d := rfl

theorem wholeText_ne_nil (d : Nat) : wholeText d ≠ [] := Nat.toDigits_ne_nil

theorem isDigit_of_mem_wholeText {d : Nat} {c : Char} (hc : c ∈ wholeText d) : c.isDigit = true :=
  Nat.isDigit_of_mem_toDigits (by decide) (by decide) hc

theorem isDigit_of_mem_fractionText {d : Nat} {c : Char} (hc : c ∈ fractionText d) :
    c.isDigit = true := by
  unfold fractionText grainsPerOne at hc
  generalize 1074 = places at hc
  exact isDigit_of_mem_fractionDigits (Nat.mod_lt _ (Nat.pow_pos (by decide))) hc

/-- A decimal in grains has as many grains in its last digit as its fraction leaves out. -/
theorem exists_ofDigitChars_text (d : Nat) :
    ∃ k, 0 < k ∧ Nat.ofDigitChars 10 (wholeText d ++ fractionText d) 0 * k = d ∧
      10 ^ (fractionText d).length * k = grainsPerOne := by
  unfold wholeText fractionText grainsPerOne
  generalize 1074 = places
  have hlength := length_fractionDigits_le places (d % 10 ^ places)
  refine ⟨10 ^ (places - (fractionDigits places (d % 10 ^ places)).length),
    Nat.pow_pos (by decide), ofDigitChars_append_fractionDigits places d, ?_⟩
  rw [← Nat.pow_add, Nat.add_sub_of_le hlength]

/-- A printed decimal is read as the magnitude nearest to it. -/
theorem read?_text (d : Nat) :
    read? (wholeText d) (fractionText d) = (nearest? d).map (.finite false) := by
  obtain ⟨k, hk, hdigits, hscale⟩ := exists_ofDigitChars_text d
  unfold read? nearest?
  dsimp only
  generalize Nat.ofDigitChars 10 (wholeText d ++ fractionText d) 0 = digits at hdigits ⊢
  congr 1
  -- Both quotients are scaled to grains: by `k` to fill the fraction up, then down to units.
  calc Magnitude.round? (Magnitude.unitsPerOne * digits) (10 ^ (fractionText d).length)
      = Magnitude.round? (k * (Magnitude.unitsPerOne * digits))
          (k * 10 ^ (fractionText d).length) := (Magnitude.round?_mul_left hk _ _).symm
    _ = Magnitude.round? (Magnitude.unitsPerOne * d) (Magnitude.unitsPerOne * grainsPerUnit) := by
        rw [Nat.mul_left_comm, Nat.mul_comm k digits, hdigits, Nat.mul_comm k, hscale,
          grainsPerOne_eq]
    _ = Magnitude.round? d grainsPerUnit := Magnitude.round?_mul_left unitsPerOne_pos _ _

theorem read?_text_shortest (m : Magnitude) :
    read? (wholeText (shortest m)) (fractionText (shortest m)) = some (.finite false m) := by
  rw [read?_text, nearest?_shortest, Option.map_some]

end Decimal
end PolishCalc
