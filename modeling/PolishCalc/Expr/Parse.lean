import PolishCalc.Expr.Reader

/-! Whole programs as tokens: one expression, then the end of the input. -/
namespace PolishCalc

/-- The first expression of a stream, `depth` applications being open around it, and the tokens
behind it. After a fault the tokens are those that were not taken. -/
def readExpr (depth : Nat) (tokens : List Token) : Except Fault Expr × List Token :=
  (Reader.start depth).run tokens

/-- An expression that must end the input. The token that ends the input is not taken. -/
def readProgram (tokens : List Token) : Except Fault Expr × List Token :=
  match readExpr 0 tokens with
  | (.ok e, t :: rest) =>
    if t.isFinish then (.ok e, t :: rest) else (.error ⟨.trailingTokens, t⟩, t :: rest)
  | result => result

def Token.stop (t : Token) : Position :=
  ⟨t.position.line, t.position.column + t.lexeme.length⟩

def withFinish (tokens : List Token) : List Token :=
  match tokens.getLast? with
  | some t => if t.isFinish then tokens else tokens ++ [Token.finish t.stop]
  | none => [Token.finish .start]

def parse (tokens : List Token) : Except Fault Expr := (readProgram (withFinish tokens)).1

end PolishCalc
