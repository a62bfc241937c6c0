import PolishCalc.Number.Basic
import PolishCalc.Source.Position

/-! Tokens: what a piece of source text stands for, and where it stands. -/
namespace PolishCalc

namespace Token

inductive Kind where
  | opening
  | closing
  | plus
  | minus
  | star
  | slash
  | number
  -- Text that no rule of the language accepts.
  | stray
  | finish
deriving DecidableEq

def Kind.ofChar? : Char → Option Kind
  | '(' => some .opening
  | ')' => some .closing
  | '+' => some .plus
  | '-' => some .minus
  | '*' => some .star
  | '/' => some .slash
  | _ => none

def Kind.label : Kind → String
  | .opening => "'('"
  | .closing => "')'"
  | .plus => "'+'"
  | .minus => "'-'"
  | .star => "'*'"
  | .slash => "'/'"
  | .number => "number"
  | .stray => "unrecognized input"
  | .finish => "end of input"

end Token

structure Token where
  kind : Token.Kind
  lexeme : String
  literal : Option Number
  position : Position
deriving DecidableEq

namespace Token

def finish (position : Position) : Token := ⟨.finish, "", none, position⟩

/-- What stands for the next token when there is none; it has no place in any text. -/
def exhausted : Token := finish ⟨0, 0⟩

def isFinish (t : Token) : Bool := t.kind == .finish

def describe (t : Token) : String :=
  if t.lexeme = "" then t.kind.label else "'" ++ t.lexeme ++ "'"

end Token
end PolishCalc
