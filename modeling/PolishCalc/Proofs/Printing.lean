import PolishCalc.Proofs.Pieces
import PolishCalc.Proofs.ReadBack
import PolishCalc.Expr.Render

/-! The text of an expression, cut into pieces again. Each piece that was printed fits what was
printed behind it: blanks keep operands apart, and a slash is followed by a blank or a parenthesis. -/
namespace PolishCalc

namespace Number

def signPieces (negative : Bool) : List Piece := if negative then [.symbol .minus '-'] else []

def pieces : Number → List Piece
  | .finite s m =>
    signPieces s ++
      [.number (Decimal.wholeText (Decimal.shortest m)) (Decimal.fractionText (Decimal.shortest m))]
  | .infinite s => signPieces s ++ "Infinity".toList.map .stray
  | .nan => "NaN".toList.map .stray

end Number

def Operator.kind : Operator → Token.Kind
  | .add => .plus
  | .sub => .minus
  | .mul => .star
  | .div => .slash

def Sign.kind : Sign → Token.Kind
  | .plus => .plus
  | .minus => .minus

namespace Expr

mutual

def pieces : Expr → List Piece
  | .number value _ => value.pieces
  | .apply operator _ operands =>
    .symbol .opening '(' :: .symbol operator.kind operator.toChar ::
      (operandPieces operands ++ [.symbol .closing ')'])
  | .signed sign _ operand => .symbol sign.kind sign.toChar :: operand.pieces

def operandPieces : List Expr → List Piece
  | [] => []
  | e :: es => .blank ' ' :: (e.pieces ++ operandPieces es)

end

end Expr

def Stops (rest : List Char) : Prop := ∀ d ∈ rest.head?, d.isDigit = false ∧ d ≠ '.'

theorem stops_nil : Stops [] := by simp [Stops]

theorem stops_blank (rest : List Char) : Stops (' ' :: rest) := by
  rintro d ⟨⟩
  decide

theorem stops_closing (rest : List Char) : Stops (')' :: rest) := by
  rintro d ⟨⟩
  decide

theorem Stops.renderOperands {rest : List Char} (h : Stops rest) (es : List Expr) :
    Stops (Expr.renderOperands es ++ rest) := by
  cases es with
  | nil => exact h
  | cons e es => exact stops_blank _

theorem pieces_symbol {kind : Token.Kind} {c : Char} {rest : List Char}
    (hc : Token.Kind.ofChar? c = some kind)
    (hrest : c = '/' → ∀ d ∈ rest.head?, d ≠ '/' ∧ d ≠ '*') :
    pieces (c :: rest) = .symbol kind c :: pieces rest := by
  have h : (Piece.symbol kind c).Fits rest := ⟨hc, hrest⟩
  exact pieces_append_of_fits h

-- The hypothesis is a fold over the list, so that evaluating it never ranges over all characters.
theorem pieces_strays {cs : List Char} (h : cs.all (fun c => decide (Piece.IsStray c)) = true)
    (rest : List Char) : pieces (cs ++ rest) = cs.map .stray ++ pieces rest := by
  induction cs with
  | nil => rfl
  | cons c cs ih =>
    rw [List.all_cons, Bool.and_eq_true, decide_eq_true_eq] at h
    have hc : (Piece.stray c).Fits (cs ++ rest) := h.1
    have hcut := pieces_append_of_fits hc
    rw [ih h.2] at hcut
    exact hcut

theorem pieces_decimal (m : Magnitude) {rest : List Char} (h : Stops rest) :
    pieces (Decimal.render (Decimal.shortest m) ++ rest) =
      .number (Decimal.wholeText (Decimal.shortest m))
        (Decimal.fractionText (Decimal.shortest m)) :: pieces rest := by
  have hfits : (Piece.number (Decimal.wholeText (Decimal.shortest m))
      (Decimal.fractionText (Decimal.shortest m))).Fits rest := by
    refine ⟨Decimal.wholeText_ne_nil _, fun c => Decimal.isDigit_of_mem_wholeText,
      fun c => Decimal.isDigit_of_mem_fractionText, fun d hd => (h d hd).1, ?_⟩
    rintro - d more rfl
    exact absurd rfl (h '.' rfl).2
  rw [Decimal.render_eq]
  exact pieces_append_of_fits hfits

namespace Number

theorem pieces_signText_append (s : Bool) (rest : List Char) :
    PolishCalc.pieces (signText s ++ rest) = signPieces s ++ PolishCalc.pieces rest := by
  cases s with
  | false => rfl
  | true => exact pieces_symbol rfl (by simp)

theorem pieces_render_append (x : Number) {rest : List Char} (h : Stops rest) :
    PolishCalc.pieces (x.render ++ rest) = x.pieces ++ PolishCalc.pieces rest := by
  cases x with
  | finite s m =>
    rw [render, List.append_assoc, pieces_signText_append, pieces_decimal m h]
    simp [pieces]
  | infinite s =>
    rw [render, List.append_assoc, pieces_signText_append, pieces_strays (by decide), pieces,
      List.append_assoc]
  | nan => exact pieces_strays (by decide) rest

end Number

theorem Operator.ofChar?_toChar (operator : Operator) :
    Token.Kind.ofChar? operator.toChar = some operator.kind := by cases operator <;> rfl

theorem Sign.ofChar?_toChar (sign : Sign) :
    Token.Kind.ofChar? sign.toChar = some sign.kind := by cases sign <;> rfl

theorem Sign.toChar_ne_slash (sign : Sign) : sign.toChar ≠ '/' := by cases sign <;> decide

namespace Expr

mutual

/-- Cutting the text of any expression gives its pieces, whatever stands behind it. -/
theorem pieces_render_append : ∀ (e : Expr) {rest : List Char}, Stops rest →
    PolishCalc.pieces (e.render ++ rest) = e.pieces ++ PolishCalc.pieces rest
  | .number value _, _, h => value.pieces_render_append h
  | .apply operator _ operands, rest, _ => by
    -- Behind a slash stands the blank of an operand or the parenthesis, so no comment begins.
    have hcomment : operator.toChar = '/' →
        ∀ d ∈ (renderOperands operands ++ ')' :: rest).head?, d ≠ '/' ∧ d ≠ '*' := by
      cases operands with
      | nil => simp [renderOperands]
      | cons e es => simp [renderOperands]
    simp only [render, pieces, List.cons_append, List.append_assoc, List.nil_append]
    rw [pieces_symbol rfl (by simp), pieces_symbol operator.ofChar?_toChar hcomment,
      pieces_renderOperands_append operands (stops_closing rest), pieces_symbol rfl (by simp)]
  | .signed sign _ operand, _, h => by
    rw [render, List.cons_append,
      pieces_symbol sign.ofChar?_toChar (fun hslash => absurd hslash sign.toChar_ne_slash),
      pieces_render_append operand h, pieces, List.cons_append]

theorem pieces_renderOperands_append : ∀ (es : List Expr) {rest : List Char}, Stops rest →
    PolishCalc.pieces (renderOperands es ++ rest) = operandPieces es ++ PolishCalc.pieces rest
  | [], _, _ => rfl
  | e :: es, rest, h => by
    have hblank : (Piece.blank ' ').Fits (e.render ++ (renderOperands es ++ rest)) := rfl
    have hcut := pieces_append_of_fits hblank
    rw [pieces_render_append e (h.renderOperands es), pieces_renderOperands_append es h] at hcut
    simpa [renderOperands, operandPieces, Piece.text] using hcut

end

theorem pieces_render (e : Expr) : PolishCalc.pieces e.render = e.pieces := by
  simpa [pieces_nil] using e.pieces_render_append stops_nil

end Expr

end PolishCalc
