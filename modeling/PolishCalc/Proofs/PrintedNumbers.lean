import PolishCalc.Program
import PolishCalc.Proofs.Spelling

/-! The text of a number as a program. A finite number is printed as digits that have no zero too many,
behind a minus sign when the sign bit is set; run as a program, its text comes to the number again. The
texts of all other numbers are words, which are no programs. -/
namespace PolishCalc

open scoped CorePow

structure PlainWhole (w : List Char) : Prop where
  ne_nil : w ≠ []
  isDigit : ∀ c ∈ w, c.isDigit = true
  leading : w.head? = some '0' → w = ['0']

inductive PlainDecimal : List Char → Prop where
  | whole {w : List Char} : PlainWhole w → PlainDecimal w
  | point {w f : List Char} : PlainWhole w → f ≠ [] → (∀ c ∈ f, c.isDigit = true) →
      f.getLast? ≠ some '0' → PlainDecimal (w ++ '.' :: f)

namespace Decimal

theorem eq_zero_of_digitChar {n : Nat} (hn : n < 10) (h : n.digitChar = '0') : n = 0 := by
  have hall : ∀ n < 10, n.digitChar = '0' → n = 0 := by decide
  exact hall n hn h

theorem eq_zero_of_head?_toDigits {n : Nat} (h : (Nat.toDigits 10 n).head? = some '0') : n = 0 := by
  induction n using Nat.strongRecOn with
  | ind n ih =>
    by_cases hn : n < 10
    · rw [Nat.toDigits_of_lt_base hn] at h
      exact eq_zero_of_digitChar hn (Option.some.inj h)
    · have hpos : 0 < n / 10 := by omega
      have hlt : n / 10 < n := by omega
      have hmod : n % 10 < 10 := by omega
      rw [← Nat.div_add_mod n 10, ← Nat.toDigits_append_toDigits (by decide) hpos hmod] at h
      have hhead : (Nat.toDigits 10 (n / 10)).head? = some '0' := by
        cases hdigits : Nat.toDigits 10 (n / 10) with
        | nil => exact absurd hdigits Nat.toDigits_ne_nil
        | cons c cs => rwa [hdigits] at h
      have := ih (n / 10) hlt hhead
      omega

theorem plainWhole_wholeText (d : Nat) : PlainWhole (wholeText d) where
  ne_nil := wholeText_ne_nil d
  isDigit c hc := isDigit_of_mem_wholeText hc
  leading h := by
    rw [wholeText, eq_zero_of_head?_toDigits h]
    rfl

theorem eq_zero_of_fractionDigits_eq_nil {places d : Nat} (hd : d < 10 ^ places)
    (h : fractionDigits places d = []) : d = 0 := by
  have hvalue := ofDigitChars_fractionDigits hd
  rw [h, Nat.ofDigitChars_nil, Nat.zero_mul] at hvalue
  exact hvalue.symm

theorem getLast?_fractionDigits_ne_zero {places d : Nat} (hd : d < 10 ^ places) :
    (fractionDigits places d).getLast? ≠ some '0' := by
  induction places generalizing d with
  | zero => simp [fractionDigits]
  | succ places ih =>
    have hpos : 0 < 10 ^ places := Nat.pow_pos (by decide)
    have hmod := Nat.mod_lt d hpos
    rw [fractionDigits]
    split
    · simp
    · rename_i hne
      cases hrest : fractionDigits places (d % 10 ^ places) with
      | cons c rest =>
        rw [List.getLast?_cons_cons, ← hrest]
        exact ih hmod
      | nil =>
        -- The digit is the last one, so all of `d` is in it.
        have hzero := eq_zero_of_fractionDigits_eq_nil hmod hrest
        have hdigit : d / 10 ^ places < 10 := by
          rw [Nat.div_lt_iff_lt_mul hpos, Nat.mul_comm]
          exact hd
        intro hlast
        have hfirst := eq_zero_of_digitChar hdigit (by simpa using hlast)
        have hsum := Nat.div_add_mod d (10 ^ places)
        rw [hzero, hfirst] at hsum
        simp at hsum
        exact hne hsum.symm

theorem getLast?_fractionText_ne_zero (d : Nat) : (fractionText d).getLast? ≠ some '0' := by
  unfold fractionText grainsPerOne
  generalize 1074 = places
  exact getLast?_fractionDigits_ne_zero (Nat.mod_lt _ (Nat.pow_pos (by decide)))

theorem plainDecimal_render (d : Nat) : PlainDecimal (render d) := by
  rw [render_eq]
  cases hfraction : fractionText d with
  | nil => simpa using PlainDecimal.whole (plainWhole_wholeText d)
  | cons c f =>
    have hdigits : ∀ e ∈ c :: f, e.isDigit = true := by
      intro e he
      rw [← hfraction] at he
      exact isDigit_of_mem_fractionText he
    have hlast := getLast?_fractionText_ne_zero d
    rw [hfraction] at hlast
    exact .point (plainWhole_wholeText d) (by simp) hdigits hlast

end Decimal

theorem Number.exists_plainDecimal {x : Number} (h : x.isFinite = true) :
    ∃ digits, (toString x).toList = (if x.isNegative then ['-'] else []) ++ digits ∧
      PlainDecimal digits := by
  cases x with
  | finite s m =>
    refine ⟨_, ?_, Decimal.plainDecimal_render (Decimal.shortest m)⟩
    rw [isNegative_finite]
    exact String.toList_ofList
  | _ => cases h

theorem evaluate_eq_ok_iff {tokens : List Token} {outcome : Outcome} :
    evaluate tokens = .ok outcome ↔
      parse tokens = .ok outcome.tree ∧ outcome.tree.eval = .ok outcome.value := by
  unfold evaluate
  constructor
  · intro h
    cases hparse : parse tokens with
    | error fault => simp [hparse, bind, Except.bind] at h
    | ok tree =>
      cases heval : tree.eval with
      | error fault => simp [hparse, heval, bind, Except.bind] at h
      | ok value =>
        obtain rfl : ⟨tree, value⟩ = outcome := by
          simpa [hparse, heval, bind, Except.bind, pure, Except.pure] using h
        exact ⟨rfl, heval⟩
  · rintro ⟨hparse, heval⟩
    simp [hparse, heval, bind, Except.bind, pure, Except.pure]

/-- A run succeeds when the source is a program that has a value; faults of scanning need not be
mentioned, since a source that has one is no program. -/
theorem interpret_eq_ok_iff {source : String} {outcome : Outcome} :
    (interpret source).result = .ok outcome ↔
      parse (scan source).tokens = .ok outcome.tree ∧ outcome.tree.eval = .ok outcome.value := by
  rw [← evaluate_eq_ok_iff]
  unfold interpret
  dsimp only
  cases hfaults : (scan source).faults with
  | nil => rfl
  | cons fault rest =>
    constructor
    · intro h
      cases h
    · intro h
      have hderives := parse_scanText_eq_ok_iff.mp (evaluate_eq_ok_iff.mp h).1
      simp [scan, faults_eq_nil_of_derives hderives] at hfaults

theorem parse_toString_number {x : Number} {e : Expr} :
    parse (scan (toString x)).tokens = .ok e ↔
      Derives 0 (Piece.tokens .start (Expr.number x .exhausted).pieces) e := by
  have hscan : scan (toString x) = scanText (Expr.number x .exhausted).render :=
    scan_toString (Expr.number x .exhausted)
  rw [hscan, parse_scanText_eq_ok_iff, Expr.pieces_render]

/-- The text of a tree that is a program is read as what evaluates alike. -/
theorem Derives.eval_eq {e e' : Expr} (h : Derives 0 (Piece.tokens .start e.pieces) e') :
    e'.eval.mapError Fault.cause = e.eval.mapError Fault.cause := by
  obtain ⟨f, hderives, herase⟩ := h.readable_spellSigns.derives_pieces
  have hread := hderives.readExpr_append []
  rw [h.readExpr_append []] at hread
  obtain rfl : e' = f := Except.ok.inj (Prod.mk.inj hread).1
  rw [Expr.eval_eq_of_erase_eq herase, Expr.eval_spellSigns]

theorem eval_eq_of_mapError_eq {e : Expr} {x : Number}
    (h : e.eval.mapError Fault.cause = .ok x) : e.eval = .ok x := by
  cases heval : e.eval with
  | ok value =>
    rw [heval] at h
    exact congrArg Except.ok (Except.ok.inj h)
  | error fault =>
    rw [heval] at h
    cases h

/-- The text of a number is a program exactly when the number is finite. The program then comes to the
number itself, bit for bit, and is printed as the same text: a minus sign when the sign bit is set, and
digits with no zero too many. -/
theorem printed_number_comes_to_itself (x : Number) :
    ((∃ outcome, (interpret (toString x)).result = .ok outcome) ↔ x.isFinite = true) ∧
    (∀ outcome, (interpret (toString x)).result = .ok outcome →
      outcome.value = x ∧ toString outcome.value = toString x) ∧
    (x.isFinite = true → ∃ digits,
      (toString x).toList = (if x.isNegative then ['-'] else []) ++ digits ∧
        PlainDecimal digits) := by
  have hvalue {e : Expr} (h : parse (scan (toString x)).tokens = .ok e) : e.eval = .ok x :=
    eval_eq_of_mapError_eq (parse_toString_number.mp h).eval_eq
  simp only [interpret_eq_ok_iff]
  refine ⟨⟨?_, ?_⟩, ?_, Number.exists_plainDecimal⟩
  · rintro ⟨outcome, hparse, -⟩
    have hreadable := (parse_toString_number.mp hparse).readable_spellSigns
    exact Expr.readable_spellSigns_number_iff.mp hreadable
  · intro hfinite
    have hreadable : Readable 0 (Expr.number x .exhausted).spellSigns :=
      Expr.readable_spellSigns_number_iff.mpr hfinite
    obtain ⟨e, hderives, -⟩ := hreadable.derives_pieces
    have hparse := parse_toString_number.mpr hderives
    exact ⟨⟨e, x⟩, hparse, hvalue hparse⟩
  · rintro outcome ⟨hparse, heval⟩
    rw [hvalue hparse] at heval
    obtain rfl : x = outcome.value := Except.ok.inj heval
    exact ⟨rfl, rfl⟩

end PolishCalc
