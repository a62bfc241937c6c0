import PolishCalc.Decimal.Literal
import PolishCalc.Fault
import PolishCalc.Source.LineIndex
import PolishCalc.Source.Piece

/-! Scanning: the pieces of a text become tokens at their places, and every piece that no rule
accepts is a fault as well. Layout leaves no token. -/
namespace PolishCalc

namespace Piece

def token (kind : Token.Kind) (literal : Option Number) (piece : Piece) (p : Position) : Token :=
  ⟨kind, String.ofList piece.text, literal, p⟩

def token? (piece : Piece) (p : Position) : Option Token :=
  match piece with
  | .symbol kind _ => some (piece.token kind none p)
  | .number whole fraction =>
    match Decimal.read? whole fraction with
    | some value => some (piece.token .number (some value) p)
    -- A number that is too great to be finite is text that no rule accepts.
    | none => some (piece.token .stray none p)
  | .stray _ | .unclosed _ => some (piece.token .stray none p)
  | .blank _ | .lineComment _ | .blockComment _ => none

def cause? : Piece → Option Fault.Cause
  | .number whole fraction =>
    if (Decimal.read? whole fraction).isNone then some .numberOutOfRange else none
  | .stray _ => some .strayCharacter
  | .unclosed _ => some .unclosedComment
  | _ => none

def fault? (piece : Piece) (p : Position) : Option Fault :=
  piece.cause?.bind fun cause => (piece.token? p).map fun token => ⟨cause, token⟩

def place (p : Position) : List Piece → List (Piece × Position)
  | [] => []
  | piece :: rest => (piece, p) :: place (p.after piece.text) rest

end Piece

structure Scan where
  tokens : List Token
  faults : List Fault
  lines : LineIndex
deriving DecidableEq

def scanText (text : List Char) : Scan :=
  let placed := Piece.place .start (pieces text)
  { tokens := placed.filterMap (fun (piece, p) => piece.token? p)
      ++ [Token.finish (Position.start.after text)]
    faults := placed.filterMap fun (piece, p) => piece.fault? p
    lines := .ofText text }

def scan (source : String) : Scan := scanText source.toList

end PolishCalc
