import PolishCalc.Proofs.Erasure
import PolishCalc.Proofs.Printing
import PolishCalc.Proofs.Scanned

/-! Printing and reading again. The trees that come from a source are those of `Readable`, and the
text of a readable tree derives the same tree with tokens of its own. -/
namespace PolishCalc

mutual

inductive Readable : Nat → Expr → Prop where
  | plain {d : Nat} {e : Expr} : ReadableUnsigned d e → Readable d e
  | signed {d : Nat} {e : Expr} {t : Token} {sign : Sign} :
      ReadableUnsigned d e → Readable d (.signed sign t e)

inductive ReadableUnsigned : Nat → Expr → Prop where
  | number {d : Nat} {m : Magnitude} {t : Token} :
      ReadableUnsigned d (.number (.finite false m) t)
  | apply {d : Nat} {es : List Expr} {t : Token} {operator : Operator} :
      d < maxDepth → ReadableAll (d + 1) es → 2 ≤ es.length →
      ReadableUnsigned d (.apply operator t es)

inductive ReadableAll : Nat → List Expr → Prop where
  | nil {d : Nat} : ReadableAll d []
  | cons {d : Nat} {e : Expr} {es : List Expr} :
      Readable d e → ReadableAll d es → ReadableAll d (e :: es)

end

def Unsigned (ts : List Token) : Prop :=
  ∀ t ∈ ts, ∀ value, t.literal = some value → ∃ m, value = .finite false m

mutual

theorem Derives.readable {d : Nat} {ts : List Token} {e : Expr} :
    Derives d ts e → Unsigned ts → Readable d e
  | .plain h, hts => .plain (h.readable hts)
  | .signed _ h, hts => .signed (h.readable fun t ht => hts t (List.mem_cons_of_mem _ ht))

theorem DerivesUnsigned.readable {d : Nat} {ts : List Token} {e : Expr} :
    DerivesUnsigned d ts e → Unsigned ts → ReadableUnsigned d e
  | .number _ hliteral, hts => by
    obtain ⟨m, rfl⟩ := hts _ (by simp) _ hliteral
    exact .number
  | .apply hd _ _ hes hlength _, hts =>
    .apply hd (hes.readable fun t ht => hts t (by simp [ht])) hlength

theorem DerivesAll.readable {d : Nat} {ts : List Token} {es : List Expr} :
    DerivesAll d ts es → Unsigned ts → ReadableAll d es
  | .nil, _ => .nil
  | .cons he hes, hts =>
    .cons (he.readable fun t ht => hts t (List.mem_append_left _ ht))
      (hes.readable fun t ht => hts t (List.mem_append_right _ ht))

end

theorem Operator.ofKind?_kind (operator : Operator) : ofKind? operator.kind = some operator := by
  cases operator <;> rfl

theorem Sign.ofKind?_kind (sign : Sign) : ofKind? sign.kind = some sign := by
  cases sign <;> rfl

theorem Expr.length_eraseAll (es : List Expr) : (eraseAll es).length = es.length := by
  induction es with
  | nil => rfl
  | cons e es ih => rw [eraseAll, List.length_cons, ih, List.length_cons]

namespace Piece

theorem tokens_symbol (p : Position) (kind : Token.Kind) (c : Char) (ps : List Piece) :
    tokens p (symbol kind c :: ps) =
      (symbol kind c).token kind none p :: tokens (p.advance c) ps := tokens_cons p _ ps

theorem tokens_blank (p : Position) (c : Char) (ps : List Piece) :
    tokens p (blank c :: ps) = tokens (p.advance c) ps := tokens_cons p _ ps

end Piece

mutual

/-- The text of a readable tree, printed at any place, derives the same tree. -/
theorem Readable.derives {d : Nat} {e : Expr} : Readable d e → ∀ p : Position,
    ∃ e', Derives d (Piece.tokens p e.pieces) e' ∧ e'.erase = e.erase
  | .plain h, p => by
    obtain ⟨e', hderives, herase⟩ := h.derives p
    exact ⟨e', .plain hderives, herase⟩
  | @Readable.signed _ e t sign h, p => by
    obtain ⟨e', hderives, herase⟩ := h.derives (p.advance sign.toChar)
    rw [Expr.pieces, Piece.tokens_symbol]
    exact ⟨_, .signed sign.ofKind?_kind hderives, by simp only [Expr.erase, herase]⟩

theorem ReadableUnsigned.derives {d : Nat} {e : Expr} : ReadableUnsigned d e → ∀ p : Position,
    ∃ e', DerivesUnsigned d (Piece.tokens p e.pieces) e' ∧ e'.erase = e.erase
  | @ReadableUnsigned.number _ m _, p => by
    have htoken := Piece.token?_number (Decimal.read?_text_shortest m) p
    have hpieces : Piece.tokens p (Number.pieces (.finite false m)) =
        [(Piece.number (Decimal.wholeText (Decimal.shortest m))
          (Decimal.fractionText (Decimal.shortest m))).token .number
            (some (.finite false m)) p] := by
      rw [Number.pieces, Number.signPieces, if_neg Bool.false_ne_true, List.nil_append,
        Piece.tokens_cons, htoken]
      rfl
    rw [Expr.pieces, hpieces]
    exact ⟨_, .number rfl rfl, by simp only [Expr.erase]⟩
  | @ReadableUnsigned.apply _ es _ operator hd hes hlength, p => by
    rw [Expr.pieces, Piece.tokens_symbol, Piece.tokens_symbol, Piece.tokens_append,
      Piece.tokens_symbol, Piece.tokens_nil]
    obtain ⟨es', hderives, herase⟩ := hes.derives ((p.advance '(').advance operator.toChar)
    have hlength' : 2 ≤ es'.length := by
      rwa [← Expr.length_eraseAll, herase, Expr.length_eraseAll]
    exact ⟨_, .apply hd rfl operator.ofKind?_kind hderives hlength' rfl,
      by simp only [Expr.erase, herase]⟩

theorem ReadableAll.derives {d : Nat} {es : List Expr} : ReadableAll d es → ∀ p : Position,
    ∃ es', DerivesAll d (Piece.tokens p (Expr.operandPieces es)) es' ∧
      Expr.eraseAll es' = Expr.eraseAll es
  | .nil, _ => ⟨[], .nil, rfl⟩
  | @ReadableAll.cons _ e es he hes, p => by
    rw [Expr.operandPieces, Piece.tokens_blank, Piece.tokens_append]
    obtain ⟨e', hderives, herase⟩ := he.derives (p.advance ' ')
    obtain ⟨es', hderivesAll, heraseAll⟩ :=
      hes.derives ((p.advance ' ').after (e.pieces.flatMap Piece.text))
    exact ⟨e' :: es', .cons hderives hderivesAll, by simp only [Expr.eraseAll, herase, heraseAll]⟩

end

namespace Expr

theorem toString_eq_of_erase_eq {e f : Expr} (h : e.erase = f.erase) : toString e = toString f := by
  have hrender : e.render = f.render := by rw [← render_erase e, h, render_erase f]
  exact congrArg String.ofList hrender

theorem eval_eq_of_erase_eq {e f : Expr} (h : e.erase = f.erase) :
    e.eval.mapError Fault.cause = f.eval.mapError Fault.cause := by
  rw [← eval_erase e, h, eval_erase f]

end Expr

theorem scan_toString (e : Expr) : scan (toString e) = scanText e.render :=
  congrArg scanText String.toList_ofList

/-- A program that is printed and read again is the same program with tokens of its own: its text
has no faults, and the trees are equal node for node, print alike, and evaluate alike up to the token
that is blamed for a failure. -/
theorem printed_program_reads_back {source : String} {e : Expr}
    (h : parse (scan source).tokens = .ok e) :
    (scan (toString e)).faults = [] ∧
      ∃ e', parse (scan (toString e)).tokens = .ok e' ∧ e'.erase = e.erase ∧
        toString e' = toString e ∧ e'.eval.mapError Fault.cause = e.eval.mapError Fault.cause := by
  -- The source matters only for the literals it can have: finite and without a sign.
  have hderives := parse_scanText_eq_ok_iff.mp h
  have hreadable := hderives.readable fun t ht value => Piece.literal_of_mem_tokens ht
  obtain ⟨e', hprinted, herase⟩ := hreadable.derives .start
  rw [← e.pieces_render] at hprinted
  rw [scan_toString]
  exact ⟨faults_eq_nil_of_derives hprinted, e', parse_scanText_eq_ok_iff.mpr hprinted, herase,
    Expr.toString_eq_of_erase_eq herase, Expr.eval_eq_of_erase_eq herase⟩

theorem commented_quotient_reads_back :
    ∃ e, parse (scan "(/ 01.50 /* by */ -(* 2 0))").tokens = .ok e ∧
      toString e = "(/ 1.5 -(* 2 0))" ∧
      (scan (toString e)).faults = [] ∧
      ∃ e', parse (scan (toString e)).tokens = .ok e' ∧ e'.erase = e.erase ∧
        toString e' = toString e ∧ e'.eval.mapError Fault.cause = e.eval.mapError Fault.cause := by
  have hprints : (parse (scan "(/ 01.50 /* by */ -(* 2 0))").tokens).toOption.map toString =
      some "(/ 1.5 -(* 2 0))" := by decide +kernel
  match h : parse (scan "(/ 01.50 /* by */ -(* 2 0))").tokens with
  | .ok e =>
    rw [h] at hprints
    exact ⟨e, rfl, Option.some.inj hprints, printed_program_reads_back h⟩
  | .error fault =>
    rw [h] at hprints
    cases hprints

end PolishCalc
