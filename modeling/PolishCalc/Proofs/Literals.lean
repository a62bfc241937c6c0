import Mathlib.Tactic.FieldSimp
import PolishCalc.Proofs.Nearest
import PolishCalc.Proofs.Places
import PolishCalc.Proofs.Scanned
import PolishCalc.Proofs.Seams

/-! Numerals of any length are read with correct rounding. The exact value of a numeral is that of
its digits in their places; the literal is the finite value nearest to it, and a numeral is out of
range exactly from the bound on where finite values end. -/
namespace PolishCalc

def digitValue (c : Char) : ℚ := (c.toNat - '0'.toNat : Nat)

def wholeValue (digits : List Char) : ℚ := digits.foldl (fun value c => 10 * value + digitValue c) 0

def fractionValue : List Char → ℚ
  | [] => 0
  | c :: digits => (digitValue c + fractionValue digits) / 10

def numeralValue (text : List Char) : ℚ :=
  wholeValue (text.takeWhile (· ≠ '.')) + fractionValue (text.dropWhile (· ≠ '.')).tail

theorem cast_ofDigitChars (digits : List Char) (init : Nat) :
    (Nat.ofDigitChars 10 digits init : ℚ) =
      digits.foldl (fun value c => 10 * value + digitValue c) (init : ℚ) := by
  induction digits generalizing init with
  | nil => rfl
  | cons c digits ih =>
    rw [Nat.ofDigitChars_cons, ih, List.foldl_cons, digitValue]
    push_cast
    rfl

theorem wholeValue_eq (digits : List Char) : wholeValue digits = Nat.ofDigitChars 10 digits 0 := by
  rw [cast_ofDigitChars, Nat.cast_zero, wholeValue]

theorem fractionValue_eq (digits : List Char) :
    fractionValue digits = Nat.ofDigitChars 10 digits 0 / 10 ^ digits.length := by
  induction digits with
  | nil => simp [fractionValue]
  | cons c digits ih =>
    have hcons : Nat.ofDigitChars 10 (c :: digits) 0 =
        10 ^ digits.length * (c.toNat - '0'.toNat) + Nat.ofDigitChars 10 digits 0 := by
      rw [Nat.ofDigitChars_cons, Nat.ofDigitChars_eq_ofDigitChars_zero, Nat.mul_zero, Nat.zero_add]
    rw [fractionValue, ih, hcons, digitValue, List.length_cons, pow_succ, Nat.cast_add,
      Nat.cast_mul, Nat.cast_pow, Nat.cast_ofNat]
    field_simp

/-- All digits as one number, over a power of ten for the digits behind the point. -/
theorem cast_ofDigitChars_append (whole fraction : List Char) :
    (Nat.ofDigitChars 10 (whole ++ fraction) 0 : ℚ) / 10 ^ fraction.length =
      wholeValue whole + fractionValue fraction := by
  rw [wholeValue_eq, fractionValue_eq, Nat.ofDigitChars_append,
    Nat.ofDigitChars_eq_ofDigitChars_zero]
  push_cast
  field_simp

theorem numeralValue_text {whole fraction rest : List Char}
    (hfits : (Piece.number whole fraction).Fits rest) :
    numeralValue (Piece.number whole fraction).text =
      wholeValue whole + fractionValue fraction := by
  have hwhole : ∀ c ∈ whole, decide (c ≠ '.') = true := by
    intro c hc
    rw [decide_eq_true_iff]
    rintro rfl
    exact absurd (hfits.2.1 _ hc) (by decide)
  have hstop : ∀ d ∈ (if fraction.isEmpty then [] else '.' :: fraction).head?,
      decide (d ≠ '.') = false := by
    cases fraction <;> simp
  rw [numeralValue, Piece.text, Piece.takeWhile_append_of_stop hwhole hstop,
    Piece.dropWhile_append_of_stop hwhole hstop]
  cases fraction <;> rfl

theorem Numeral.exists_fits {text : List Char} (h : Numeral text) :
    ∃ whole fraction, (Piece.number whole fraction).Fits [] ∧
      (Piece.number whole fraction).text = text := by
  refine Piece.fits_of_longestNumeral ⟨h, fun longer hbegins _ => ?_⟩
  rw [List.append_nil] at hbegins
  exact hbegins.length_le

theorem scan_of_fits {piece : Piece} {source : String} (h : piece.Fits [])
    (htext : piece.text = source.toList) :
    (∃ p, (scan source).tokens = (piece.token? .start).toList ++ [Token.finish p]) ∧
      (scan source).faults = (piece.fault? .start).toList := by
  have hpieces : pieces source.toList = [piece] := by
    rw [← htext, ← List.append_nil piece.text, pieces_append_of_fits h, pieces_nil]
  constructor
  · exact ⟨_, by rw [scan, tokens_scanText, hpieces, Piece.tokens_cons, Piece.tokens_nil,
      List.append_nil]⟩
  · rw [scan, faults_scanText, hpieces, Piece.faults_cons]
    exact List.append_nil _

namespace Decimal
variable {whole fraction : List Char} {m : Magnitude}

/-- What is rounded in reading is the exact value, counted in units. -/
theorem quotient_eq (whole fraction : List Char) :
    ((Magnitude.unitsPerOne * Nat.ofDigitChars 10 (whole ++ fraction) 0 : Nat) : ℚ) /
        (10 ^ fraction.length : Nat) =
      Magnitude.unitsPerOne * (wholeValue whole + fractionValue fraction) := by
  rw [← cast_ofDigitChars_append, Nat.cast_mul, Nat.cast_pow, Nat.cast_ofNat, mul_div_assoc]

theorem read?_eq_none_iff :
    read? whole fraction = none ↔
      2 ^ 1024 - 2 ^ 970 ≤ wholeValue whole + fractionValue fraction := by
  have hden : 0 < 10 ^ fraction.length := Nat.pow_pos (by decide)
  rw [read?, Option.map_eq_none_iff]
  exact Magnitude.round?_eq_none_iff_le hden (quotient_eq whole fraction)

theorem read?_eq_some_iff :
    read? whole fraction = some (.finite false m) ↔
      wholeValue whole + fractionValue fraction < 2 ^ 1024 - 2 ^ 970 ∧
        Magnitude.IsNearest (wholeValue whole + fractionValue fraction) m := by
  have hden : 0 < 10 ^ fraction.length := Nat.pow_pos (by decide)
  rw [read?, Option.map_eq_some_iff,
    ← Magnitude.round?_eq_some_iff hden (quotient_eq whole fraction)]
  simp

theorem exists_read?_of_lt
    (h : wholeValue whole + fractionValue fraction < 2 ^ 1024 - 2 ^ 970) :
    ∃ m, read? whole fraction = some (.finite false m) := by
  obtain ⟨value, hread⟩ : ∃ value, read? whole fraction = some value := by
    rw [← Option.ne_none_iff_exists', ne_eq, read?_eq_none_iff, not_le]
    exact h
  obtain ⟨m, rfl⟩ := read?_finite hread
  exact ⟨m, hread⟩

end Decimal

/-- A numeral that stands alone is a number token with the nearest finite value for its literal, or
a stray token when its value is too great. -/
theorem numeral_read_nearest {source : String} (h : Numeral source.toList) :
    (numeralValue source.toList < 2 ^ 1024 - 2 ^ 970 → ∃ m p,
      (scan source).tokens =
        [⟨.number, source, some (.finite false m), .start⟩, Token.finish p] ∧
      (scan source).faults = [] ∧
      Magnitude.IsNearest (numeralValue source.toList) m ∧
      ∀ n, Magnitude.IsNearest (numeralValue source.toList) n → n = m) ∧
    (2 ^ 1024 - 2 ^ 970 ≤ numeralValue source.toList → ∃ p,
      (scan source).tokens = [⟨.stray, source, none, .start⟩, Token.finish p] ∧
      (scan source).faults = [⟨.numberOutOfRange, ⟨.stray, source, none, .start⟩⟩]) := by
  obtain ⟨whole, fraction, hfits, htext⟩ := h.exists_fits
  have hsource : String.ofList (Piece.number whole fraction).text = source := by
    rw [htext, String.ofList_toList]
  obtain ⟨⟨p, htokens⟩, hfaults⟩ := scan_of_fits hfits htext
  rw [← htext, numeralValue_text hfits, htokens, hfaults]
  constructor
  · intro hlt
    obtain ⟨m, hread⟩ := Decimal.exists_read?_of_lt hlt
    refine ⟨m, p, ?_, ?_, (Decimal.read?_eq_some_iff.mp hread).2, ?_⟩
    · simp [Piece.token?_number hread, Piece.token, hsource]
    · simp [Piece.fault?, Piece.cause?, hread]
    · intro n hn
      have hother := Decimal.read?_eq_some_iff.mpr ⟨hlt, hn⟩
      rw [hread] at hother
      simpa [eq_comm] using hother
  · intro hle
    have hread := Decimal.read?_eq_none_iff.mpr hle
    refine ⟨p, ?_, ?_⟩
    · simp [Piece.token?_outOfRange hread, Piece.token, hsource]
    · simp [Piece.fault?, Piece.cause?, hread, Piece.token?_outOfRange hread, Piece.token, hsource]

/-- A numeral half way between two finite values is read as the even one. -/
theorem numeral_read_nearest_at_tie :
    Numeral "9007199254740993".toList ∧ numeralValue "9007199254740993".toList = 2 ^ 53 + 1 ∧
      ∃ m p, (scan "9007199254740993").tokens =
          [⟨.number, "9007199254740993", some (.finite false m), .start⟩, Token.finish p] ∧
        m.toRat = 2 ^ 53 ∧ Magnitude.IsNearest (2 ^ 53 + 1) m := by
  have hdigits : "9007199254740993".toList.all Char.isDigit = true := by decide +kernel
  have hnumeral : Numeral "9007199254740993".toList :=
    .whole (by decide) (List.all_eq_true.mp hdigits)
  have hvalue : numeralValue "9007199254740993".toList = 2 ^ 53 + 1 := by decide +kernel
  have hbound : numeralValue "9007199254740993".toList < 2 ^ 1024 - 2 ^ 970 := by decide +kernel
  obtain ⟨m, p, htokens, -, hnearest, -⟩ := (numeral_read_nearest hnumeral).1 hbound
  have hliteral : (scan "9007199254740993").tokens.map (·.literal) =
      [some (.finite false ⟨Magnitude.lead, 1075, by decide, by decide, by decide⟩), none] := by
    decide +kernel
  rw [htokens] at hliteral
  obtain rfl : m = ⟨Magnitude.lead, 1075, _, _, _⟩ := by simpa [Token.finish] using hliteral
  rw [hvalue] at hnearest
  exact ⟨hnumeral, hvalue, _, p, htokens, by decide +kernel, hnearest⟩

end PolishCalc
